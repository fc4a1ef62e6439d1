import ProgramExplorer.OrderedMap
import ProgramExplorer.UnixPath

/-!
# The deletion map of the layer squasher

`DeletionsOsString` of `peimage/src/squash.rs`. One map holds three kinds of
facts about byte paths: whited out, opaque, and already seen in a higher
layer. A lookup reads a single entry, the last key not above the path. The
map depends only on the set of facts inserted, and `isDeleted` is restated
over that set.
-/

set_option autoImplicit false

namespace ProgramExplorer.SquashDeletions
open ByteStrings OrderedMap UnixPath

inductive DeletionState where
  | whiteout
  | opaqueDir
  | shadowed
  deriving DecidableEq, Repr

inductive DeletionReason where
  | whiteout
  | whiteoutDir
  | opaqueDir
  | shadowed
  deriving DecidableEq, Repr

structure DeletionsOsString where
  map : OrdMap Bytes DeletionState
  whiteoutQ : List Bytes
  opaqueQ : List Bytes

def DeletionsOsString.default : DeletionsOsString := ⟨OrdMap.empty, [], []⟩

def withoutTrailingSlash (x : Bytes) : Bytes :=
  if x.getLast? = some slash then x.dropLast else x

def osStrStartsWith (x pre : Bytes) : Bool :=
  match x.dropPrefix? pre with
  | some rem => hasRoot rem
  | none => false

def merge : DeletionState → DeletionState → DeletionState
  | .whiteout, .whiteout => .whiteout
  | .opaqueDir, .opaqueDir => .opaqueDir
  | .shadowed, .shadowed => .shadowed
  | .whiteout, .opaqueDir | .whiteout, .shadowed => .whiteout
  | .opaqueDir, .whiteout | .shadowed, .whiteout => .whiteout
  | .shadowed, .opaqueDir | .opaqueDir, .shadowed => .whiteout

def DeletionsOsString.insert (d : DeletionsOsString) (path : Bytes) (reason : DeletionState) :
    DeletionsOsString :=
  { d with map := d.map.upsert path fun
      | some state => merge state reason
      | none => reason }

def DeletionsOsString.pushWhiteout (d : DeletionsOsString) (p : Bytes) : DeletionsOsString :=
  { d with whiteoutQ := d.whiteoutQ ++ [withoutTrailingSlash p] }

def DeletionsOsString.pushOpaque (d : DeletionsOsString) (p : Bytes) : DeletionsOsString :=
  { d with opaqueQ := d.opaqueQ ++ [withoutTrailingSlash p] }

def DeletionsOsString.insertSeen (d : DeletionsOsString) (p : Bytes) : DeletionsOsString :=
  d.insert p .shadowed

def reasonFor (p key : Bytes) : DeletionState → Option DeletionReason
  | .shadowed => if key = p then some .shadowed else none
  | .whiteout =>
    if key = p then some .whiteout
    else if osStrStartsWith p key then some .whiteoutDir
    else none
  | .opaqueDir => if key ≠ p ∧ osStrStartsWith p key then some .opaqueDir else none

def DeletionsOsString.isDeleted (d : DeletionsOsString) (p : Bytes) : Option DeletionReason :=
  match d.map.lastLE (withoutTrailingSlash p) with
  | none => none
  | some (key, state) => reasonFor (withoutTrailingSlash p) key state

def DeletionsOsString.endOfLayer (d : DeletionsOsString) : DeletionsOsString :=
  let d' := d.whiteoutQ.foldl (fun d x => d.insert x .whiteout) { d with whiteoutQ := [] }
  d'.opaqueQ.foldl (fun d x => d.insert x .opaqueDir) { d' with opaqueQ := [] }

theorem osStrStartsWith_iff (x pre : Bytes) :
    osStrStartsWith x pre = true ↔ ∃ r, x = pre ++ slash :: r := by
  constructor
  · intro h
    unfold osStrStartsWith at h
    cases hd : x.dropPrefix? pre with
    | none => simp [hd] at h
    | some rem =>
      rw [hd] at h
      have hx : x = pre ++ rem := by
        obtain ⟨a, ha, hb⟩ := List.dropPrefix?_eq_some_iff.mp hd
        simpa [ha] using hb
      cases rem with
      | nil => simp [hasRoot] at h
      | cons c r =>
        have hc : c = slash := by simpa [hasRoot] using h
        exact ⟨r, hc ▸ hx⟩
  · rintro ⟨r, rfl⟩
    have hd : (pre ++ slash :: r).dropPrefix? pre = some (slash :: r) :=
      List.dropPrefix?_append_of_beq _ (by simp)
    simp [osStrStartsWith, hd, hasRoot]

theorem osStrStartsWith_self (p : Bytes) : osStrStartsWith p p = false := by
  by_contra h
  obtain ⟨r, hr⟩ := (osStrStartsWith_iff p p).mp (by simpa using h)
  have := congrArg List.length hr
  simp at this

abbrev Fact := Bytes × DeletionState

def stateOf (fs : List Fact) (k : Bytes) : Option DeletionState :=
  if (k, .whiteout) ∈ fs ∨ (k, .shadowed) ∈ fs ∧ (k, .opaqueDir) ∈ fs then some .whiteout
  else if (k, .shadowed) ∈ fs then some .shadowed
  else if (k, .opaqueDir) ∈ fs then some .opaqueDir
  else none

def Records (d : DeletionsOsString) (fs : List Fact) : Prop := ∀ k, d.map.get? k = stateOf fs k

theorem records_congr {d : DeletionsOsString} {fs gs : List Fact} (h : Records d fs)
    (hfg : ∀ f, f ∈ fs ↔ f ∈ gs) : Records d gs := by
  intro k
  simp only [h k, stateOf, hfg]

theorem records_default : Records DeletionsOsString.default [] := by
  intro k
  simp [DeletionsOsString.default, OrdMap.empty, OrdMap.get?, lookup, stateOf]

theorem records_insert {d : DeletionsOsString} {fs : List Fact} (h : Records d fs)
    (k : Bytes) (s : DeletionState) : Records (d.insert k s) ((k, s) :: fs) := by
  intro k'
  simp only [DeletionsOsString.insert, OrdMap.get?_upsert]
  by_cases hk : k' = k
  · subst hk
    rw [if_pos rfl, h k']
    by_cases hw : (k', DeletionState.whiteout) ∈ fs <;>
      by_cases hs : (k', DeletionState.shadowed) ∈ fs <;>
      by_cases ho : (k', DeletionState.opaqueDir) ∈ fs <;>
      cases s <;> simp [stateOf, hw, hs, ho, merge]
  · rw [if_neg hk, h k']
    simp [stateOf, hk]

theorem records_insert_all {d : DeletionsOsString} {fs : List Fact} (h : Records d fs)
    (ks : List Bytes) (s : DeletionState) :
    Records (ks.foldl (fun d x => d.insert x s) d) (fs ++ ks.map (fun k => (k, s))) := by
  induction ks generalizing d fs with
  | nil => simpa using h
  | cons k ks ih =>
    refine records_congr (ih (records_insert h k s)) ?_
    intro f
    simp only [List.cons_append, List.mem_cons, List.mem_append, List.map_cons]
    tauto

theorem insert_all_queues (d : DeletionsOsString) (ks : List Bytes) (s : DeletionState) :
    (ks.foldl (fun d x => d.insert x s) d).whiteoutQ = d.whiteoutQ ∧
      (ks.foldl (fun d x => d.insert x s) d).opaqueQ = d.opaqueQ := by
  induction ks generalizing d with
  | nil => exact ⟨rfl, rfl⟩
  | cons k ks ih => exact ih (d.insert k s)

theorem records_endOfLayer {d : DeletionsOsString} {fs : List Fact} (h : Records d fs) :
    Records d.endOfLayer (fs ++ d.whiteoutQ.map (fun k => (k, .whiteout)) ++
      d.opaqueQ.map (fun k => (k, .opaqueDir))) ∧
    d.endOfLayer.whiteoutQ = [] ∧ d.endOfLayer.opaqueQ = [] := by
  have h1 : Records { d with whiteoutQ := [] } fs := h
  have h2 := records_insert_all h1 d.whiteoutQ .whiteout
  have q2 := insert_all_queues { d with whiteoutQ := [] } d.whiteoutQ .whiteout
  have h3 : ∀ e : DeletionsOsString, Records e (fs ++ d.whiteoutQ.map (fun k => (k, .whiteout))) →
      Records { e with opaqueQ := [] } (fs ++ d.whiteoutQ.map (fun k => (k, .whiteout))) :=
    fun e he => he
  have h4 := records_insert_all (h3 _ h2) d.opaqueQ .opaqueDir
  unfold DeletionsOsString.endOfLayer
  simp only [q2.2]
  refine ⟨h4, ?_, ?_⟩
  · rw [(insert_all_queues _ _ _).1]
    exact q2.1
  · rw [(insert_all_queues _ _ _).2]

/-- What one fact says of a path: a whiteout covers the path and everything
below it, an opaque directory what is below, a seen path itself. -/
def Covers : Fact → Bytes → Prop
  | (k, .whiteout), p => k = p ∨ osStrStartsWith p k = true
  | (k, .opaqueDir), p => osStrStartsWith p k = true
  | (k, .shadowed), p => k = p

instance (f : Fact) (p : Bytes) : Decidable (Covers f p) :=
  match f with
  | (k, .whiteout) => inferInstanceAs (Decidable (k = p ∨ osStrStartsWith p k = true))
  | (k, .opaqueDir) => inferInstanceAs (Decidable (osStrStartsWith p k = true))
  | (k, .shadowed) => inferInstanceAs (Decidable (k = p))

/-- The single lookup: among the facts whose key is the greatest not above
the path, one covers the path. -/
def Hides (fs : List Fact) (p : Bytes) : Prop :=
  ∃ f ∈ fs, f.1 ≤ p ∧ (∀ g ∈ fs, g.1 ≤ p → g.1 ≤ f.1) ∧ Covers f p

instance (fs : List Fact) (p : Bytes) : Decidable (Hides fs p) :=
  inferInstanceAs (Decidable (∃ f ∈ fs, _))

/-- A fact covers the path, and no other key stands between the two. -/
def Reached (fs : List Fact) (p : Bytes) : Prop :=
  ∃ f ∈ fs, Covers f p ∧ ∀ g ∈ fs, ¬ (f.1 < g.1 ∧ g.1 ≤ p)

instance (fs : List Fact) (p : Bytes) : Decidable (Reached fs p) :=
  inferInstanceAs (Decidable (∃ f ∈ fs, _))

theorem reached_congr {fs gs : List Fact} (h : ∀ f, f ∈ fs ↔ f ∈ gs) (p : Bytes) :
    Reached fs p ↔ Reached gs p := by
  simp only [Reached, h]

theorem covers_le {f : Fact} {p : Bytes} (h : Covers f p) : f.1 ≤ p := by
  have hbelow (k : Bytes) (hk : osStrStartsWith p k = true) : k ≤ p := by
    obtain ⟨r, rfl⟩ := (osStrStartsWith_iff p k).mp hk
    exact (lt_append_cons k slash r).le
  obtain ⟨k, s⟩ := f
  cases s with
  | whiteout =>
    rcases h with h | h
    · exact h.le
    · exact hbelow k h
  | opaqueDir => exact hbelow k h
  | shadowed => exact le_of_eq h

theorem hides_iff_reached (fs : List Fact) (p : Bytes) : Hides fs p ↔ Reached fs p := by
  constructor
  · rintro ⟨f, hf, -, hmax, hc⟩
    exact ⟨f, hf, hc, fun g hg ⟨hlt, hle⟩ => absurd (hmax g hg hle) (not_le.mpr hlt)⟩
  · rintro ⟨f, hf, hc, hno⟩
    refine ⟨f, hf, covers_le hc, fun g hg hle => ?_, hc⟩
    by_contra hlt
    exact hno g hg ⟨not_le.mp hlt, hle⟩

theorem stateOf_isSome (fs : List Fact) (k : Bytes) :
    (stateOf fs k).isSome ↔ ∃ s, (k, s) ∈ fs := by
  constructor
  · intro h
    unfold stateOf at h
    split_ifs at h with hw hs ho
    · rcases hw with hw | hw
      · exact ⟨_, hw⟩
      · exact ⟨_, hw.1⟩
    · exact ⟨_, hs⟩
    · exact ⟨_, ho⟩
    · simp at h
  · rintro ⟨s, hs⟩
    cases s <;> simp only [stateOf] <;> split_ifs <;> simp_all

theorem reasonFor_isSome (fs : List Fact) (p k : Bytes) (s : DeletionState)
    (h : stateOf fs k = some s) :
    (reasonFor p k s).isSome ↔ ∃ t, (k, t) ∈ fs ∧ Covers (k, t) p := by
  have hself : k = p → osStrStartsWith p k = false := fun hk => hk ▸ osStrStartsWith_self k
  have hex : (∃ t, (k, t) ∈ fs ∧ Covers (k, t) p) ↔
      (k, .whiteout) ∈ fs ∧ (k = p ∨ osStrStartsWith p k = true) ∨
      (k, .opaqueDir) ∈ fs ∧ osStrStartsWith p k = true ∨ (k, .shadowed) ∈ fs ∧ k = p := by
    constructor
    · rintro ⟨t, ht, hc⟩
      cases t with
      | whiteout => exact Or.inl ⟨ht, hc⟩
      | opaqueDir => exact Or.inr (Or.inl ⟨ht, hc⟩)
      | shadowed => exact Or.inr (Or.inr ⟨ht, hc⟩)
    · rintro (⟨ht, hc⟩ | ⟨ht, hc⟩ | ⟨ht, hc⟩)
      · exact ⟨_, ht, hc⟩
      · exact ⟨_, ht, hc⟩
      · exact ⟨_, ht, hc⟩
  rw [hex]
  unfold stateOf at h
  by_cases hk : k = p
  · have hn := hself hk
    split_ifs at h with hw hs ho <;> cases h <;> simp [reasonFor, hk] <;> grind
  · split_ifs at h with hw hs ho <;> cases h <;> simp [reasonFor, hk] <;> grind

theorem isDeleted_isSome_iff {d : DeletionsOsString} {fs : List Fact} (h : Records d fs)
    (p : Bytes) : (d.isDeleted p).isSome ↔ Hides fs (withoutTrailingSlash p) := by
  unfold DeletionsOsString.isDeleted
  have hkey : ∀ k, (d.map.get? k).isSome ↔ ∃ s, (k, s) ∈ fs := by
    intro k
    rw [h k]
    exact stateOf_isSome fs k
  cases hl : d.map.lastLE (withoutTrailingSlash p) with
  | none =>
    have hn := d.map.lastLE_eq_none _ hl
    simp only [Option.isSome_none, Bool.false_eq_true, false_iff]
    rintro ⟨f, hf, hle, -, -⟩
    exact hn f.1 ((hkey f.1).mpr ⟨f.2, hf⟩) hle
  | some e =>
    obtain ⟨k, s⟩ := e
    obtain ⟨hk, hkp, hmax⟩ := d.map.lastLE_eq_some _ k s hl
    simp only
    rw [reasonFor_isSome fs _ k s ((h k).symm.trans hk)]
    constructor
    · rintro ⟨t, ht, hc⟩
      exact ⟨(k, t), ht, hkp, fun g hg hgp => hmax g.1 ((hkey g.1).mpr ⟨g.2, hg⟩) hgp, hc⟩
    · rintro ⟨f, hf, hfp, hfmax, hc⟩
      obtain ⟨t, ht⟩ := (hkey k).mp (by simp [hk])
      have hfk : f.1 = k := le_antisymm
        (hmax f.1 ((hkey f.1).mpr ⟨f.2, hf⟩) hfp) (hfmax (k, t) ht hkp)
      exact ⟨f.2, hfk ▸ hf, hfk ▸ hc⟩

end ProgramExplorer.SquashDeletions
