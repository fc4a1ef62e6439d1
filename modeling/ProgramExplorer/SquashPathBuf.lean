import ProgramExplorer.PredecessorLookup
import ProgramExplorer.SquashDeletions

/-!
# The deletion map keyed by path components

`DeletionsPathBuf` of `peimage/src/squash.rs` keeps the same facts as
`DeletionsOsString` under paths that are compared component by component. A
slash is smaller than most bytes of a name but not than all, so a sibling
such as `x-1` stands between `x` and `x/c` in the order of the bytes and
after both in the order of the components. Each map answers `None` when such
a key hides the one that decides.
-/

set_option autoImplicit false

namespace ProgramExplorer.SquashPathBuf
open ByteStrings OrderedMap UnixPath SquashDeletions PredecessorLookup

section Order

/-- The order of the variants of `std::path::Component`, names by their bytes. -/
def rank : Component → ℕ ×ₗ Bytes
  | .rootDir => toLex (0, [])
  | .curDir => toLex (1, [])
  | .parentDir => toLex (2, [])
  | .normal name => toLex (3, name)

theorem rank_injective : Function.Injective rank := by
  intro a b h
  cases a <;> cases b <;> simp_all [rank]

instance : LinearOrder Component := LinearOrder.lift' rank rank_injective

end Order

section PathBuf

structure DeletionsPathBuf where
  map : OrdMap (List Component) DeletionState
  whiteoutQ : List Bytes
  opaqueQ : List Bytes

def DeletionsPathBuf.default : DeletionsPathBuf := ⟨OrdMap.empty, [], []⟩

def DeletionsPathBuf.insert (d : DeletionsPathBuf) (path : Bytes) (reason : DeletionState) :
    DeletionsPathBuf :=
  { d with map := d.map.upsert (components path) fun
      | some state => merge state reason
      | none => reason }

def DeletionsPathBuf.pushWhiteout (d : DeletionsPathBuf) (p : Bytes) : DeletionsPathBuf :=
  { d with whiteoutQ := d.whiteoutQ ++ [p] }

def DeletionsPathBuf.pushOpaque (d : DeletionsPathBuf) (p : Bytes) : DeletionsPathBuf :=
  { d with opaqueQ := d.opaqueQ ++ [p] }

def DeletionsPathBuf.insertSeen (d : DeletionsPathBuf) (p : Bytes) : DeletionsPathBuf :=
  d.insert p .shadowed

def pathReasonFor (p key : List Component) : DeletionState → Option DeletionReason
  | .shadowed => if key = p then some .shadowed else none
  | .whiteout =>
    if key = p then some .whiteout
    else if key <+: p then some .whiteoutDir
    else none
  | .opaqueDir => if key ≠ p ∧ key <+: p then some .opaqueDir else none

def DeletionsPathBuf.isDeleted (d : DeletionsPathBuf) (p : Bytes) : Option DeletionReason :=
  match d.map.lastLE (components p) with
  | none => none
  | some (key, state) => pathReasonFor (components p) key state

def DeletionsPathBuf.endOfLayer (d : DeletionsPathBuf) : DeletionsPathBuf :=
  let d' := d.whiteoutQ.foldl (fun d x => d.insert x .whiteout) { d with whiteoutQ := [] }
  d'.opaqueQ.foldl (fun d x => d.insert x .opaqueDir) { d' with opaqueQ := [] }

end PathBuf

section Trait

structure Deletions (σ : Type) where
  default : σ
  pushWhiteout : σ → Bytes → σ
  pushOpaque : σ → Bytes → σ
  insertSeen : σ → Bytes → σ
  endOfLayer : σ → σ
  isDeleted : σ → Bytes → Option DeletionReason

def osString : Deletions DeletionsOsString where
  default := .default
  pushWhiteout := .pushWhiteout
  pushOpaque := .pushOpaque
  insertSeen := .insertSeen
  endOfLayer := .endOfLayer
  isDeleted := DeletionsOsString.isDeleted

def pathBuf : Deletions DeletionsPathBuf where
  default := .default
  pushWhiteout := .pushWhiteout
  pushOpaque := .pushOpaque
  insertSeen := .insertSeen
  endOfLayer := .endOfLayer
  isDeleted := DeletionsPathBuf.isDeleted

inductive DeletionCall where
  | pushWhiteout (p : Bytes)
  | pushOpaque (p : Bytes)
  | insertSeen (p : Bytes)
  | endOfLayer
  | isDeleted (p : Bytes)

variable {σ : Type}

def Deletions.step (D : Deletions σ) (d : σ) : DeletionCall → σ
  | .pushWhiteout p => D.pushWhiteout d p
  | .pushOpaque p => D.pushOpaque d p
  | .insertSeen p => D.insertSeen d p
  | .endOfLayer => D.endOfLayer d
  | .isDeleted _ => d

def Deletions.after (D : Deletions σ) (calls : List DeletionCall) : σ := calls.foldl D.step D.default

def Deletions.answersFrom (D : Deletions σ) : σ → List DeletionCall → List (Option DeletionReason)
  | _, [] => []
  | d, .isDeleted p :: calls => D.isDeleted d p :: D.answersFrom d calls
  | d, call :: calls => D.answersFrom (D.step d call) calls

def Deletions.answers (D : Deletions σ) (calls : List DeletionCall) : List (Option DeletionReason) :=
  D.answersFrom D.default calls

end Trait

section Paths

/-- Names with single slashes between them; only the first may be `.`. -/
structure Plain (p : Bytes) : Prop where
  nonempty : ∀ n ∈ parts p, n ≠ []
  notDot : [dot] ∉ (parts p).tail

instance (p : Bytes) : Decidable (Plain p) :=
  decidable_of_iff ((∀ n ∈ parts p, n ≠ []) ∧ [dot] ∉ (parts p).tail)
    ⟨fun h => ⟨h.1, h.2⟩, fun h => ⟨h.nonempty, h.notDot⟩⟩

/-- A plain path, or the empty one, which is what `whiteout` returns for a marker at the root. -/
def Kept (p : Bytes) : Prop := p = [] ∨ Plain p

def Relative (p : Bytes) : Prop := p = [] ∨ Plain (withoutTrailingSlash p)

instance (p : Bytes) : Decidable (Relative p) := inferInstanceAs (Decidable (_ ∨ _))

def DeletionCall.Relative : DeletionCall → Prop
  | .pushWhiteout p | .pushOpaque p | .insertSeen p | .isDeleted p => SquashPathBuf.Relative p
  | .endOfLayer => True

instance : (c : DeletionCall) → Decidable c.Relative
  | .pushWhiteout p | .pushOpaque p | .insertSeen p | .isDeleted p =>
    inferInstanceAs (Decidable (SquashPathBuf.Relative p))
  | .endOfLayer => inferInstanceAs (Decidable True)

def toComponent (name : Bytes) : Component :=
  if name = [dot] then .curDir else if name = [dot, dot] then .parentDir else .normal name

theorem toComponent_injective : Function.Injective toComponent := by
  intro a b h
  unfold toComponent at h
  split_ifs at h <;> simp_all

theorem filterMap_parse {names : List Bytes} (h : ∀ n ∈ names, n ≠ []) (hd : [dot] ∉ names) :
    names.filterMap parseSingleComponent = names.map toComponent := by
  rw [← List.filterMap_eq_map]
  apply List.filterMap_congr
  intro n hn
  have hne : n ≠ [dot] := fun he => hd (he ▸ hn)
  simp only [parseSingleComponent, h n hn, hne, or_self, if_false, toComponent, Function.comp_apply]
  split_ifs <;> rfl

theorem plain_cases {p : Bytes} (h : Plain p) :
    hasRoot p = false ∧ (p = [dot] ∨ (∃ r, p = dot :: slash :: r) ∨
      includeCurDir p = false ∧ [dot] ∉ parts p) := by
  cases p with
  | nil => exact absurd rfl (h.nonempty [] (by decide))
  | cons c p =>
    have hc : c ≠ slash := by
      rintro rfl
      exact h.nonempty [] (by rw [parts_slash]; simp) rfl
    refine ⟨by simpa [hasRoot] using hc, ?_⟩
    have htail := h.notDot
    rw [parts_cons hc] at htail ⊢
    obtain ⟨n, ns, hp⟩ := List.exists_cons_of_ne_nil (parts_ne_nil p)
    rw [hp] at htail ⊢
    simp only [List.modifyHead_cons, List.tail_cons] at htail
    cases p with
    | nil =>
      by_cases hd : c = dot
      · exact Or.inl (by rw [hd])
      · refine Or.inr (Or.inr ⟨by simpa [includeCurDir] using hd, ?_⟩)
        simp [htail, Ne.symm hd]
    | cons d p =>
      by_cases hd : c = dot ∧ d = slash
      · obtain ⟨rfl, rfl⟩ := hd
        exact Or.inr (Or.inl ⟨p, rfl⟩)
      · refine Or.inr (Or.inr ⟨by simpa [includeCurDir] using hd, ?_⟩)
        simp only [List.modifyHead_cons, List.mem_cons, htail, or_false]
        intro he
        obtain ⟨rfl, rfl⟩ := List.cons.inj he
        have hds : d ≠ slash := fun hs => hd ⟨rfl, hs⟩
        rw [parts_cons hds] at hp
        obtain ⟨n, ns', hp'⟩ := List.exists_cons_of_ne_nil (parts_ne_nil p)
        rw [hp'] at hp
        simp at hp

theorem components_plain {p : Bytes} (h : Plain p) : components p = (parts p).map toComponent := by
  obtain ⟨hroot, rfl | ⟨r, rfl⟩ | ⟨hcur, hdot⟩⟩ := plain_cases h
  · decide
  · have hparts : parts (dot :: slash :: r) = [dot] :: parts r := parts_append [dot] r
    have hne := h.nonempty
    have hnd := h.notDot
    rw [hparts, List.tail_cons] at hnd
    rw [hparts] at hne ⊢
    have hseg : segments (dot :: slash :: r) = [] :: parts r := parts_slash r
    have hr := filterMap_parse (fun n hn => hne n (by simp [hn])) hnd
    have hcur : includeCurDir (dot :: slash :: r) = true := rfl
    rw [components, hroot, hcur, hseg, List.filterMap_cons_none (by rfl), hr]
    rfl
  · have hseg : segments p = parts p := by simp [segments, lenBeforeBody, hroot, hcur, parts]
    rw [components, hroot, hcur, hseg, filterMap_parse h.nonempty hdot]
    rfl

theorem components_plain_ne {p : Bytes} (h : Plain p) : components p ≠ [] := by
  rw [components_plain h]
  simpa using parts_ne_nil p

theorem components_inj {a b : Bytes} (ha : Kept a) (hb : Kept b) (h : components a = components b) :
    a = b := by
  rcases ha with rfl | ha <;> rcases hb with rfl | hb
  · rfl
  · exact absurd h.symm (components_plain_ne hb)
  · exact absurd h (components_plain_ne ha)
  · rw [components_plain ha, components_plain hb] at h
    rw [← joined_parts a, ← joined_parts b, List.map_injective_iff.mpr toComponent_injective h]

theorem joined_append {as bs : List Bytes} (ha : as ≠ []) (hb : bs ≠ []) :
    joined (as ++ bs) = joined as ++ slash :: joined bs := by
  induction as with
  | nil => exact absurd rfl ha
  | cons a as ih =>
    cases as with
    | nil => simpa [joined] using joined_cons hb
    | cons a' as =>
      rw [List.cons_append, joined_cons (by simp), ih (by simp), @joined_cons (a' :: as) a (by simp)]
      simp

/-- For plain paths a byte prefix that ends at a slash is a prefix of components. -/
theorem startsWith_iff {a q : Bytes} (ha : Plain a) (hq : Plain q) :
    osStrStartsWith q a = true ↔ components a <+: components q ∧ components a ≠ components q := by
  rw [osStrStartsWith_iff, components_plain ha, components_plain hq]
  constructor
  · rintro ⟨r, rfl⟩
    rw [parts_append, List.map_append]
    refine ⟨List.prefix_append _ _, ?_⟩
    intro he
    exact parts_ne_nil r (by simpa using he)
  · rintro ⟨⟨t, ht⟩, hne⟩
    obtain ⟨as, bs, hsplit, has, rfl⟩ := List.map_eq_append_iff.mp ht.symm
    obtain rfl := List.map_injective_iff.mpr toComponent_injective has
    have hb : bs ≠ [] := by
      rintro rfl
      exact hne (by rw [hsplit, List.append_nil])
    refine ⟨joined bs, ?_⟩
    rw [← joined_parts q, hsplit, joined_append (parts_ne_nil a) hb, joined_parts]

theorem components_relative {p : Bytes} (h : Relative p) :
    components p = components (withoutTrailingSlash p) := by
  rcases h with rfl | h
  · rfl
  unfold withoutTrailingSlash at h
  unfold withoutTrailingSlash
  split_ifs at h ⊢ with hs
  swap
  · rfl
  have hx : p.dropLast ≠ [] := by
    intro hnil
    rw [hnil] at h
    exact h.nonempty [] (by decide) rfl
  have hp := (List.dropLast_append_getLast? slash hs).symm
  generalize p.dropLast = x at hp hx
  rw [hp, components_append_slash, lead, if_neg hx]
  exact List.append_nil _

theorem startsWith_lt {a q : Bytes} (h : osStrStartsWith q a = true) : a < q := by
  obtain ⟨r, rfl⟩ := (osStrStartsWith_iff q a).mp h
  exact lt_append_cons a slash r

/-- Of two paths above `q` the one that is later by its components is later by its bytes. -/
theorem le_of_components_le {a b q : Bytes} (ha : Plain a) (hb : Plain b)
    (haq : components a <+: components q) (hbq : components b <+: components q)
    (hle : components a ≤ components b) : a ≤ b := by
  have hab : components a <+: components b := by
    obtain h | h := List.prefix_or_prefix_of_prefix haq hbq
    · exact h
    · by_cases he : components b = components a
      · rw [he]
      · exact absurd (prefix_lt h he) (not_lt.mpr hle)
  by_cases he : components a = components b
  · exact (components_inj (Or.inr ha) (Or.inr hb) he).le
  · exact (startsWith_lt ((startsWith_iff ha hb).mpr ⟨hab, he⟩)).le

theorem not_kept_slash (b : Bytes) : ¬ Kept (b ++ [slash]) := by
  rintro (h | h)
  · simp at h
  · exact h.nonempty [] (by rw [parts_append]; exact List.mem_append_right _ (by decide)) rfl

theorem kept_of_relative {p : Bytes} (h : Relative p) : Kept (withoutTrailingSlash p) := by
  rcases h with rfl | h
  · exact Or.inl rfl
  · exact Or.inr h

theorem withoutTrailingSlash_cases (p : Bytes) :
    withoutTrailingSlash p = p ∨ p = withoutTrailingSlash p ++ [slash] := by
  unfold withoutTrailingSlash
  split_ifs with h
  · exact Or.inr (List.dropLast_append_getLast? slash h).symm
  · exact Or.inl rfl

end Paths

end ProgramExplorer.SquashPathBuf
