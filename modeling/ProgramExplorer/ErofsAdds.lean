import ProgramExplorer.ErofsCalls
import ProgramExplorer.ErofsPaths

/-!
# What adding an entry does to the others

`insert` stores the new entry under the last name of the path and does not
look at what was there. For a leaf that is the one entry it replaces; for a
directory it is everything below it as well. Setting the data of a directory
takes nothing away.
-/

set_option autoImplicit false

namespace ProgramExplorer.ErofsAdds
open ByteStrings OrderedMap UnixPath StateRules ErofsTree ErofsBuilder ErofsCursor
open ErofsContents ErofsCalls ErofsPaths

section Map

variable {φ δ : Type} {names : List Bytes} {m : List Bytes → Option (φ ⊕ δ)}

/-- Every path other than `names` that led somewhere leads to the same. -/
def KeptApart (names : List Bytes) (m m' : List Bytes → Option (φ ⊕ δ)) : Prop :=
  ∀ q, q ≠ names → ∀ v, m q = some v → m' q = some v

theorem wayTo_of_some {info : δ} {q : List Bytes} {v : φ ⊕ δ} (h : m q = some v) :
    wayTo info names m q = some v := by
  unfold wayTo
  split_ifs
  · simp [h]
  · exact h

theorem keptApart_withLeaf_iff {info : δ} {x : φ} :
    KeptApart names m (withLeaf info names x m) ↔ ∀ q, names <+: q → q ≠ names → m q = none := by
  constructor
  · intro h q hp hne
    by_contra hq
    obtain ⟨v, hv⟩ := Option.ne_none_iff_exists'.mp hq
    have := h q hne v hv
    rw [withLeaf, if_neg hne, if_pos hp] at this
    cases this
  · intro h q hne v hv
    rw [withLeaf, if_neg hne]
    by_cases hp : names <+: q
    · rw [h q hp hne] at hv
      cases hv
    · rw [if_neg hp]
      exact wayTo_of_some hv

theorem keptApart_withDir {info : δ} {set : δ → δ} : KeptApart names m (withDir info names set m) := by
  intro q hne v hv
  rw [withDir, if_neg hne]
  exact wayTo_of_some hv

end Map

theorem bare_default : Bare Dir.default := by
  intro name hn
  have h₁ : [dot] ≠ name := fun h => hn (Or.inl h.symm)
  have h₂ : [dot, dot] ≠ name := fun h => hn (Or.inr h.symm)
  simp [Dir.default, lookup, h₁, h₂]

def callPath : Call → Bytes
  | .addFile path _ _ _ => path
  | .addSymlink path _ _ => path
  | .upsertDir path _ => path
  | .addLink path _ _ => path

def StoresLeaf : Call → Prop
  | .addFile _ _ _ _ => True
  | .addSymlink _ _ _ => True
  | .upsertDir _ _ => False
  | .addLink _ _ _ => False

theorem onRoot_addLeaf {b b' : Builder} {path : Bytes} {x : Leaf}
    (h : onRoot (addLeaf Dir.default path x) b = .ok () b') :
    nodeAt b'.root = withLeaf DirInfo.default (pathNames path) x (nodeAt b.root) := by
  obtain ⟨root, hr, rfl⟩ := onRoot_ok h
  exact (addLeaf_ok bare_default hr).2

/-- A call that succeeds loses nothing but what its path led to, unless it
stores a leaf in the place of a directory that is not empty. -/
theorem nothing_lost_iff {b b' : Builder} {c : Call} (h : c.run b = .ok () b') :
    KeptApart (pathNames (callPath c)) (nodeAt b.root) (nodeAt b'.root) ↔
      (StoresLeaf c → ∀ q, pathNames (callPath c) <+: q → q ≠ pathNames (callPath c) →
        nodeAt b.root q = none) := by
  have he := call_effect b c
  rw [h] at he
  generalize hres : EStateM.Result.ok () b' = r at he
  cases he with
  | refused => cases hres
  | @file path metadata len contents f b₁ hs hm =>
    rw [onRoot_addLeaf hres.symm, hs.root, callPath, keptApart_withLeaf_iff]
    simp [StoresLeaf]
  | @symlink path link metadata s b₁ hs hm =>
    rw [onRoot_addLeaf hres.symm, hs.root, callPath, keptApart_withLeaf_iff]
    simp [StoresLeaf]
  | @dir path metadata m hm =>
    obtain ⟨root, hr, rfl⟩ := onRoot_ok hres.symm
    have hkept : KeptApart (pathNames path) (nodeAt b.root) (nodeAt root) := by
      rw [upsertDir_ok bare_default hr]
      exact keptApart_withDir
    simpa [StoresLeaf, callPath] using hkept
  | link =>
    cases hres
    have hkept : ∀ names, KeptApart names (nodeAt b.root) (nodeAt b.root) := fun _ _ _ _ hv => hv
    simpa [StoresLeaf] using hkept _

def emptyFile (path : Bytes) : Call := .addFile path Meta.default 0 ⟨[], false⟩

def unlimited : Builder := Builder.new ⟨none, none⟩

/-- Adding `a` after `b` keeps `b`. -/
theorem nothing_lost_beside :
    KeptApart [[0x61]] (nodeAt (after unlimited [emptyFile [0x62]]).root)
      (nodeAt (stateAfter ((emptyFile [0x61]).run (after unlimited [emptyFile [0x62]]))).root) := by
  have hok : result ((emptyFile [0x61]).run (after unlimited [emptyFile [0x62]])) = .ok () := by
    decide +kernel
  have hfree : lookup [0x61] (after unlimited [emptyFile [0x62]]).root.children = none :=
    Option.isNone_iff_eq_none.mp (by decide +kernel)
  apply (nothing_lost_iff (ok_of_result hok)).mpr
  intro _ q hp _
  obtain ⟨rest, rfl⟩ := hp
  change nodeAt _ ([0x61] :: rest) = none
  rw [nodeAt_cons _ (by decide), hfree]
  rfl

/-- Adding `a` after `a/b` succeeds, and `a/b` is gone. -/
theorem below_file_lost :
    ∃ b b', after unlimited [emptyFile [0x61, slash, 0x62]] = b ∧ (emptyFile [0x61]).run b = .ok () b' ∧
      (nodeAt b.root [[0x61], [0x62]]).isSome ∧ nodeAt b'.root [[0x61], [0x62]] = none := by
  have hok : result ((emptyFile [0x61]).run (after unlimited [emptyFile [0x61, slash, 0x62]])) =
      .ok () := by decide +kernel
  refine ⟨_, _, rfl, ok_of_result hok, by decide +kernel, ?_⟩
  exact Option.isNone_iff_eq_none.mp (by decide +kernel)

end ProgramExplorer.ErofsAdds
