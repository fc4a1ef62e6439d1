import ProgramExplorer.SquashPathBuf

/-!
# When the two deletion maps answer alike

After the same calls the map keyed by bytes and the map keyed by components
hold the same states, except that `insert_seen` keeps a slash at the end of a
path only in the first. A query is then answered alike exactly when the state
of its own path is the same in both and the key that decides is hidden in
both orders or in neither.
-/

set_option autoImplicit false

namespace ProgramExplorer.SquashAgreement
open ByteStrings OrderedMap UnixPath SquashDeletions PredecessorLookup SquashPathBuf

section Simulation

theorem merge_comm (s t : DeletionState) : merge s t = merge t s := by
  cases s <;> cases t <;> rfl

theorem merge_assoc (s t u : DeletionState) : merge (merge s t) u = merge s (merge t u) := by
  cases s <;> cases t <;> cases u <;> rfl

/-- What is known about a path, from what is kept with and without a slash at its end. -/
abbrev known (m : OrdMap Bytes DeletionState) (b : Bytes) : Option DeletionState :=
  (m.get? b).merge merge (m.get? (b ++ [slash]))

/-- The two maps after the same calls. Only `insert_seen` keeps a slash at the end. -/
structure MapsAgree (mO : OrdMap Bytes DeletionState) (mP : OrdMap (List Component) DeletionState) :
    Prop where
  state : ∀ b, Kept b → mP.get? (components b) = known mO b
  keyO : ∀ k s, mO.get? k = some s → Kept k ∨ ∃ b, Plain b ∧ k = b ++ [slash] ∧ s = .shadowed
  keyP : ∀ c, (mP.get? c).isSome → ∃ b, Kept b ∧ c = components b

structure Agree (dO : DeletionsOsString) (dP : DeletionsPathBuf) : Prop where
  maps : MapsAgree dO.map dP.map
  whiteoutQ : dO.whiteoutQ = dP.whiteoutQ.map withoutTrailingSlash
  opaqueQ : dO.opaqueQ = dP.opaqueQ.map withoutTrailingSlash
  relative : ∀ p ∈ dP.whiteoutQ ++ dP.opaqueQ, Relative p

theorem agree_default : Agree .default .default where
  maps :=
    { state := fun _ _ => rfl
      keyO := fun k s h => by cases h
      keyP := fun c h => by cases h }
  whiteoutQ := rfl
  opaqueQ := rfl
  relative := by simp [DeletionsPathBuf.default]

def inserted (reason : DeletionState) : Option DeletionState → DeletionState
  | some state => merge state reason
  | none => reason

theorem known_upsert_plain {m : OrdMap Bytes DeletionState} {k : Bytes} (hk : Kept k)
    (r : DeletionState) (b : Bytes) :
    known (m.upsert k (inserted r)) b =
      if b = k then some (inserted r (known m k)) else known m b := by
  have hne : b ++ [slash] ≠ k := fun h => not_kept_slash b (h ▸ hk)
  simp only [known, OrdMap.get?_upsert, if_neg hne]
  split_ifs with he
  · subst he
    cases m.get? b <;> cases m.get? (b ++ [slash]) <;>
      simp [inserted, merge_assoc, merge_comm r]
  · rfl

theorem known_upsert_slash {m : OrdMap Bytes DeletionState} {k b : Bytes} (hb : Kept b)
    (r : DeletionState) :
    known (m.upsert (k ++ [slash]) (inserted r)) b =
      if b = k then some (inserted r (known m k)) else known m b := by
  have hne : b ≠ k ++ [slash] := fun h => not_kept_slash k (h ▸ hb)
  simp only [known, OrdMap.get?_upsert, if_neg hne, List.append_left_inj]
  split_ifs with he
  · subst he
    cases m.get? b <;> cases m.get? (b ++ [slash]) <;>
      simp [inserted, merge_assoc]
  · rfl

/-- One insertion, under the bytes `k` on one side and its components on the other. -/
theorem mapsAgree_upsert {mO : OrdMap Bytes DeletionState}
    {mP : OrdMap (List Component) DeletionState} (h : MapsAgree mO mP) {b k : Bytes} (hb : Kept b)
    {r : DeletionState} (hk : k = b ∨ Plain b ∧ k = b ++ [slash] ∧ r = .shadowed) :
    MapsAgree (mO.upsert k (inserted r)) (mP.upsert (components b) (inserted r)) where
  state := by
    intro b' hb'
    have hknown : known (mO.upsert k (inserted r)) b' =
        if b' = b then some (inserted r (known mO b)) else known mO b' := by
      obtain rfl | ⟨-, rfl, -⟩ := hk
      · exact known_upsert_plain hb r b'
      · exact known_upsert_slash hb' r
    rw [hknown, OrdMap.get?_upsert, h.state b hb, h.state b' hb']
    by_cases he : b' = b
    · rw [if_pos he, if_pos (congrArg components he)]
    · rw [if_neg he, if_neg fun hc => he (components_inj hb' hb hc)]
  keyO := by
    intro k' s hs
    rw [OrdMap.get?_upsert] at hs
    split_ifs at hs with he
    · subst he
      obtain rfl | ⟨hplain, rfl, rfl⟩ := hk
      · exact Or.inl hb
      · refine Or.inr ⟨b, hplain, rfl, ?_⟩
        cases hold : mO.get? (b ++ [slash]) with
        | none =>
          rw [hold] at hs
          exact (Option.some.inj hs).symm
        | some t =>
          obtain hp | ⟨_, -, -, rfl⟩ := h.keyO _ _ hold
          · exact absurd hp (not_kept_slash b)
          · rw [hold] at hs
            exact (Option.some.inj hs).symm
    · exact h.keyO k' s hs
  keyP := by
    intro c hc
    rw [OrdMap.get?_upsert] at hc
    split_ifs at hc with he
    · exact ⟨b, hb, he⟩
    · exact h.keyP c hc

theorem agree_insert {dO : DeletionsOsString} {dP : DeletionsPathBuf} (h : Agree dO dP) {p k : Bytes}
    (hp : Relative p) {r : DeletionState}
    (hk : k = withoutTrailingSlash p ∨ Plain (withoutTrailingSlash p) ∧
      k = withoutTrailingSlash p ++ [slash] ∧ r = .shadowed) :
    Agree (dO.insert k r) (dP.insert p r) where
  maps := by
    have := mapsAgree_upsert h.maps (kept_of_relative hp) hk
    rw [← components_relative hp] at this
    exact this
  whiteoutQ := h.whiteoutQ
  opaqueQ := h.opaqueQ
  relative := h.relative

theorem agree_insertAll {dO : DeletionsOsString} {dP : DeletionsPathBuf} (h : Agree dO dP)
    (r : DeletionState) {ps : List Bytes} (hps : ∀ p ∈ ps, Relative p) :
    Agree ((ps.map withoutTrailingSlash).foldl (fun d x => d.insert x r) dO)
        (ps.foldl (fun d x => d.insert x r) dP) := by
  induction ps generalizing dO dP with
  | nil => exact h
  | cons p ps ih =>
    exact ih (agree_insert h (hps p (by simp)) (Or.inl rfl)) fun p' hp' => hps p' (by simp [hp'])

theorem agree_endOfLayer {dO : DeletionsOsString} {dP : DeletionsPathBuf} (h : Agree dO dP) :
    Agree dO.endOfLayer dP.endOfLayer := by
  have hw : Agree { dO with whiteoutQ := [] } { dP with whiteoutQ := [] } :=
    ⟨h.maps, rfl, h.opaqueQ, fun p hp => h.relative p (List.mem_append_right _ hp)⟩
  have h₁ := agree_insertAll hw .whiteout fun p hp => h.relative p (List.mem_append_left _ hp)
  rw [← h.whiteoutQ] at h₁
  have ho : Agree { dO.whiteoutQ.foldl (fun d x => d.insert x .whiteout) { dO with whiteoutQ := [] } with
      opaqueQ := [] } { dP.whiteoutQ.foldl (fun d x => d.insert x .whiteout) { dP with whiteoutQ := [] } with
      opaqueQ := [] } :=
    ⟨h₁.maps, h₁.whiteoutQ, rfl, fun p hp => h₁.relative p (by simpa using Or.inl (by simpa using hp))⟩
  have h₂ := agree_insertAll ho .opaqueDir fun p hp => h₁.relative p (List.mem_append_right _ hp)
  rw [← h₁.opaqueQ] at h₂
  exact h₂

theorem agree_step {dO : DeletionsOsString} {dP : DeletionsPathBuf} (h : Agree dO dP)
    {c : DeletionCall} (hc : c.Relative) : Agree (osString.step dO c) (pathBuf.step dP c) := by
  cases c with
  | pushWhiteout p =>
    refine ⟨h.maps, ?_, h.opaqueQ, ?_⟩
    · simp [Deletions.step, osString, pathBuf, DeletionsOsString.pushWhiteout,
        DeletionsPathBuf.pushWhiteout, h.whiteoutQ]
    · intro p' hp'
      have := h.relative p'
      simp only [Deletions.step, pathBuf, DeletionsPathBuf.pushWhiteout, List.mem_append,
        List.mem_singleton] at hp' this
      obtain (hp' | rfl) | hp' := hp'
      · exact this (Or.inl hp')
      · exact hc
      · exact this (Or.inr hp')
  | pushOpaque p =>
    refine ⟨h.maps, h.whiteoutQ, ?_, ?_⟩
    · simp [Deletions.step, osString, pathBuf, DeletionsOsString.pushOpaque,
        DeletionsPathBuf.pushOpaque, h.opaqueQ]
    · intro p' hp'
      have := h.relative p'
      simp only [Deletions.step, pathBuf, DeletionsPathBuf.pushOpaque, List.mem_append,
        List.mem_singleton] at hp' this
      obtain hp' | hp' | rfl := hp'
      · exact this (Or.inl hp')
      · exact this (Or.inr hp')
      · exact hc
  | insertSeen p =>
    refine agree_insert h hc ?_
    rcases hc with rfl | hc
    · exact Or.inl rfl
    obtain hp | hp := withoutTrailingSlash_cases p
    · exact Or.inl hp.symm
    · exact Or.inr ⟨hc, hp, rfl⟩
  | endOfLayer => exact agree_endOfLayer h
  | isDeleted p => exact h

theorem agree_after {calls : List DeletionCall} (h : ∀ c ∈ calls, c.Relative) :
    Agree (osString.after calls) (pathBuf.after calls) := by
  induction calls using List.reverseRecOn with
  | nil => exact agree_default
  | append_singleton calls c ih =>
    rw [Deletions.after, Deletions.after, List.foldl_concat, List.foldl_concat]
    exact agree_step (ih fun c' hc' => h c' (by simp [hc'])) (h c (by simp))

end Simulation

section Answers

/-- The paths above `q` in the order of the bytes, and in that of the components. -/
def AboveO (q : Bytes) (k : Bytes) : Prop := osStrStartsWith q k = true

def AboveP (c : List Component) (k : List Component) : Prop := k <+: c ∧ k ≠ c

def ofSelf : DeletionState → Option DeletionReason
  | .shadowed => some .shadowed
  | .whiteout => some .whiteout
  | .opaqueDir => none

def ofAbove : DeletionState → Option DeletionReason
  | .shadowed => none
  | .whiteout => some .whiteoutDir
  | .opaqueDir => some .opaqueDir

theorem ofSelf_injective : Function.Injective ofSelf := by
  intro s t h
  cases s <;> cases t <;> simp_all [ofSelf]

theorem ofAbove_eq_none {s : DeletionState} : ofAbove s = none ↔ s = .shadowed := by
  cases s <;> simp [ofAbove]

/-- What a lookup answers, whichever way paths are ordered and compared: `reason` is
`reasonFor` of a query `q`, and `above` the keys it takes for ancestors of `q`. -/
structure Reads {κ : Type} (q : κ) (above : κ → Prop)
    (reason : κ → DeletionState → Option DeletionReason) : Prop where
  self : ∀ s, reason q s = ofSelf s
  ofAbove : ∀ k s, above k → reason k s = ofAbove s
  other : ∀ k s, k ≠ q → ¬ above k → reason k s = none

def found {κ : Type} (reason : κ → DeletionState → Option DeletionReason) :
    Option (κ × DeletionState) → Option DeletionReason
  | none => none
  | some (key, state) => reason key state

theorem reads_reasonFor (q : Bytes) : Reads q (AboveO q) (reasonFor q) where
  self := by
    intro s
    cases s <;> simp [reasonFor, ofSelf]
  ofAbove := by
    intro k s hk
    have hne : k ≠ q := (startsWith_lt hk).ne
    unfold AboveO at hk
    cases s <;> simp [reasonFor, SquashAgreement.ofAbove, hne, hk]
  other := by
    intro k s hne hk
    unfold AboveO at hk
    cases s <;> simp [reasonFor, hne, hk]

theorem reads_pathReasonFor (c : List Component) : Reads c (AboveP c) (pathReasonFor c) where
  self := by
    intro s
    cases s <;> simp [pathReasonFor, ofSelf]
  ofAbove := by
    rintro k s ⟨hk, hne⟩
    cases s <;> simp [pathReasonFor, SquashAgreement.ofAbove, hne, hk]
  other := by
    intro k s hne hk
    have hk : ¬ k <+: c := fun h => hk ⟨h, hne⟩
    cases s <;> simp [pathReasonFor, hne, hk]

section
variable {κ : Type} [LinearOrder κ] {m : OrdMap κ DeletionState} {q a : κ} {s : DeletionState}
  {above : κ → Prop} {reason : κ → DeletionState → Option DeletionReason}

theorem found_self (hr : Reads q above reason) (h : m.get? q = some s) :
    found reason (m.lastLE q) = ofSelf s := by
  rw [lastLE_self h, found, hr.self]

theorem found_deepest (hr : Reads q above reason) (hq : m.get? q = none) (hlt : ∀ a, above a → a < q)
    (hd : Deepest m above a s) (hb : ¬ Between m a q) : found reason (m.lastLE q) = ofAbove s := by
  rw [lastLE_of_deepest hq hlt hd hb, found, hr.ofAbove a s hd.isAbove]

theorem found_misses (hr : Reads q above reason) (h : Misses m q above) :
    found reason (m.lastLE q) = none := by
  cases hl : m.lastLE q with
  | none => rfl
  | some e =>
    obtain ⟨k, t⟩ := e
    obtain ⟨hne, hk⟩ := h k t hl
    exact hr.other k t hne hk

theorem found_between (hr : Reads q above reason) (hq : m.get? q = none) (hd : Deepest m above a s)
    (hb : Between m a q) : found reason (m.lastLE q) = none :=
  found_misses hr (misses_of_between hq hd hb)

theorem found_none (hr : Reads q above reason) (hq : m.get? q = none)
    (h : ∀ a, (m.get? a).isSome → ¬ above a) : found reason (m.lastLE q) = none :=
  found_misses hr (misses_of_none hq h)

theorem found_ne_shadowed (hr : Reads q above reason) (hq : m.get? q = none) :
    found reason (m.lastLE q) ≠ some .shadowed := by
  cases hl : m.lastLE q with
  | none => simp [found]
  | some e =>
    obtain ⟨k, t⟩ := e
    by_cases hk : above k
    · rw [found, hr.ofAbove k t hk]
      cases t <;> simp [ofAbove]
    · rw [found, hr.other k t (ne_of_lastLE hq hl) hk]
      simp

end

theorem isDeleted_osString (d : DeletionsOsString) (p : Bytes) :
    osString.isDeleted d p =
      found (reasonFor (withoutTrailingSlash p)) (d.map.lastLE (withoutTrailingSlash p)) := by
  show DeletionsOsString.isDeleted d p = _
  unfold DeletionsOsString.isDeleted
  cases d.map.lastLE (withoutTrailingSlash p) <;> rfl

theorem isDeleted_pathBuf (d : DeletionsPathBuf) (p : Bytes) :
    pathBuf.isDeleted d p = found (pathReasonFor (components p)) (d.map.lastLE (components p)) := by
  show DeletionsPathBuf.isDeleted d p = _
  unfold DeletionsPathBuf.isDeleted
  cases d.map.lastLE (components p) <;> rfl

/-- The query `q` is answered alike: the two maps hold the same state for `q` itself, and if that is
none, then for the last path above `q` that is whited out or opaque a key stands between the
two in the order of the bytes exactly when one does in the order of the components. By their
bytes the empty path is above no other. -/
structure Settled (dO : DeletionsOsString) (dP : DeletionsPathBuf) (q : Bytes) : Prop where
  self : dO.map.get? q = dP.map.get? (components q)
  above : dO.map.get? q = none → ∀ a s, Kept a →
    Deepest dP.map (AboveP (components q)) (components a) s → s ≠ .shadowed →
    (a = [] ∨ Between dO.map a q ↔ Between dP.map (components a) (components q))

theorem aboveP_iff {a q : Bytes} (ha : Plain a) (hq : Plain q) :
    AboveP (components q) (components a) ↔ AboveO q a :=
  (startsWith_iff ha hq).symm

theorem plain_of_aboveO {q k : Bytes} {mO : OrdMap Bytes DeletionState}
    {mP : OrdMap (List Component) DeletionState} (h : MapsAgree mO mP) (hq : Kept q)
    (hk : (mO.get? k).isSome) (hkq : AboveO q k) : Plain q ∧ Plain k := by
  obtain ⟨s, hs⟩ := Option.isSome_iff_exists.mp hk
  obtain ⟨r, hr⟩ := (osStrStartsWith_iff _ _).mp hkq
  have hq : Plain q := hq.resolve_left (by simp [hr])
  refine ⟨hq, ?_⟩
  subst hr
  obtain (rfl | hp) | ⟨b, -, rfl, -⟩ := h.keyO k s hs
  · exact absurd rfl (hq.nonempty [] (by rw [List.nil_append, parts_slash]; simp))
  · exact hp
  · -- a key `b/` is above `q` only if `q` goes on with a second slash
    refine absurd rfl (hq.nonempty [] ?_)
    rw [parts_append, parts_append]
    exact List.mem_append_left _ (List.mem_append_right _ (by decide))

section
variable {dO : DeletionsOsString} {dP : DeletionsPathBuf} {q a : Bytes} {s : DeletionState}

theorem isSome_components (h : Agree dO dP) {b : Bytes} (hb : Kept b)
    (hs : (dO.map.get? b).isSome ∨ (dO.map.get? (b ++ [slash])).isSome) :
    (dP.map.get? (components b)).isSome := by
  rw [h.maps.state b hb, known]
  cases ho : dO.map.get? b <;> cases hs' : dO.map.get? (b ++ [slash]) <;> simp_all

/-- The path that is last above `q` by its components is last by its bytes, if it is kept without
its slash. -/
theorem deepest_osString (h : Agree dO dP) (hq : Plain q) (ha : Plain a)
    (hd : Deepest dP.map (AboveP (components q)) (components a) s) {t : DeletionState}
    (ht : dO.map.get? a = some t) : Deepest dO.map (AboveO q) a t where
  get := ht
  isAbove := (aboveP_iff ha hq).mp hd.isAbove
  last := by
    intro a' hs ha'
    have hp := (plain_of_aboveO h.maps (Or.inr hq) hs ha').2
    have habove := (aboveP_iff hp hq).mpr ha'
    exact le_of_components_le hp ha habove.1 hd.isAbove.1
      (hd.last _ (isSome_components h (Or.inr hp) (Or.inl hs)) habove)

theorem between_of_slash (h : Agree dO dP) (hq : Plain q) (ha : Plain a)
    (hd : Deepest dP.map (AboveP (components q)) (components a) s)
    (hs : (dO.map.get? (a ++ [slash])).isSome) {a' : Bytes} (hsome : (dO.map.get? a').isSome)
    (ha' : AboveO q a') : Between dO.map a' q := by
  refine ⟨a ++ [slash], hs, ?_, ?_⟩
  · have hp := (plain_of_aboveO h.maps (Or.inr hq) hsome ha').2
    have habove := (aboveP_iff hp hq).mpr ha'
    have hle : a' ≤ a := le_of_components_le hp ha habove.1 hd.isAbove.1
      (hd.last _ (isSome_components h (Or.inr hp) (Or.inl hsome)) habove)
    exact hle.trans_lt (lt_append_cons a slash [])
  · obtain ⟨r, rfl⟩ := (osStrStartsWith_iff _ _).mp ((aboveP_iff ha hq).mp hd.isAbove)
    cases r with
    | nil => exact absurd (Or.inr hq) (not_kept_slash a)
    | cons c r =>
      have := lt_append_cons (a ++ [slash]) c r
      rwa [List.append_assoc] at this

open Classical in
theorem found_pathBuf (hP : dP.map.get? (components q) = none)
    (hd : Deepest dP.map (AboveP (components q)) (components a) s) :
    found (pathReasonFor (components q)) (dP.map.lastLE (components q)) =
      if Between dP.map (components a) (components q) then none else ofAbove s := by
  have hr := reads_pathReasonFor (components q)
  split_ifs with hb
  · exact found_between hr hP hd hb
  · exact found_deepest hr hP (fun k hk => prefix_lt hk.1 hk.2) hd hb

theorem found_under_root (h : Agree dO dP) (hq : Kept q) (hO : dO.map.get? q = none)
    (hd : Deepest dP.map (AboveP (components q)) [] s) : found (reasonFor q) (dO.map.lastLE q) = none := by
  refine found_none (reads_reasonFor q) hO fun k hk habove => ?_
  obtain ⟨hq, hp⟩ := plain_of_aboveO h.maps hq hk habove
  have hle := hd.last _ (isSome_components h (Or.inr hp) (Or.inl hk)) ((aboveP_iff hp hq).mpr habove)
  exact absurd (prefix_lt List.nil_prefix (components_plain_ne hp).symm) (not_lt.mpr hle)

open Classical in
theorem found_osString (h : Agree dO dP) (hq : Plain q) (hO : dO.map.get? q = none) (ha : Plain a)
    (hd : Deepest dP.map (AboveP (components q)) (components a) s) :
    found (reasonFor q) (dO.map.lastLE q) = if Between dO.map a q then none else ofAbove s := by
  have hr := reads_reasonFor q
  have hstate := h.maps.state a (Or.inr ha)
  rw [hd.get, known] at hstate
  cases hslash : dO.map.get? (a ++ [slash]) with
  | none =>
    have hget : dO.map.get? a = some s := by
      rw [hslash, Option.merge_none_right] at hstate
      exact hstate.symm
    have hdO := deepest_osString h hq ha hd hget
    split_ifs with hb
    · exact found_between hr hO hdO hb
    · exact found_deepest hr hO (fun k => startsWith_lt) hdO hb
  | some u =>
    -- the key `a/` follows every path above `q`
    have hbet : ∀ a', (dO.map.get? a').isSome → AboveO q a' → Between dO.map a' q :=
      fun a' => between_of_slash h hq ha hd (by simp [hslash])
    have hnone : found (reasonFor q) (dO.map.lastLE q) = none := by
      by_cases hany : ∃ a', (dO.map.get? a').isSome ∧ AboveO q a'
      · obtain ⟨a', ha', habove⟩ := hany
        obtain ⟨a'', t, hd'⟩ := exists_deepest ha' habove
        exact found_between hr hO hd' (hbet a'' (by simp [hd'.get]) hd'.isAbove)
      · exact found_none hr hO fun a' h₁ h₂ => hany ⟨a', h₁, h₂⟩
    rw [hnone]
    split_ifs with hb
    · rfl
    · -- then `a` is known only as seen
      have hget : dO.map.get? a = none := by
        by_contra hne
        exact hb (hbet a (Option.isSome_iff_ne_none.mpr hne) ((aboveP_iff ha hq).mp hd.isAbove))
      obtain hp | ⟨_, -, -, rfl⟩ := h.maps.keyO _ _ hslash
      · exact absurd hp (not_kept_slash a)
      · rw [hget, hslash, Option.merge_none_left] at hstate
        rw [Option.some.inj hstate]
        rfl

open Classical in
theorem found_above (h : Agree dO dP) (hq : Kept q) (hO : dO.map.get? q = none) (ha : Kept a)
    (hd : Deepest dP.map (AboveP (components q)) (components a) s) :
    found (reasonFor q) (dO.map.lastLE q) =
      if a = [] ∨ Between dO.map a q then none else ofAbove s := by
  rcases ha with rfl | ha
  · rw [if_pos (Or.inl rfl)]
    exact found_under_root h hq hO hd
  · have hne : a ≠ [] := by
      rintro rfl
      exact components_plain_ne ha rfl
    have hq : Plain q := by
      refine hq.resolve_left ?_
      rintro rfl
      exact hd.isAbove.2 (List.prefix_nil.mp hd.isAbove.1)
    rw [found_osString h hq hO ha hd]
    simp only [hne, false_or]

theorem settled_iff_of_none (h : Agree dO dP) (hq : Kept q) (hO : dO.map.get? q = none)
    (hP : dP.map.get? (components q) = none) :
    found (reasonFor q) (dO.map.lastLE q) =
        found (pathReasonFor (components q)) (dP.map.lastLE (components q)) ↔ Settled dO dP q := by
  by_cases hany : ∃ c, (dP.map.get? c).isSome ∧ AboveP (components q) c
  · obtain ⟨c, hc, habove⟩ := hany
    obtain ⟨c', s, hd⟩ := exists_deepest hc habove
    obtain ⟨a, ha, rfl⟩ := h.maps.keyP c' (by simp [hd.get])
    rw [found_above h hq hO ha hd, found_pathBuf hP hd]
    have hside : Settled dO dP q ↔ (s ≠ .shadowed →
        (a = [] ∨ Between dO.map a q ↔ Between dP.map (components a) (components q))) := by
      constructor
      · intro hset
        exact hset.above hO a s ha hd
      · intro hs
        refine ⟨hO.trans hP.symm, fun _ a' s' ha' hd' hne => ?_⟩
        obtain ⟨hc, rfl⟩ := deepest_unique hd' hd
        obtain rfl := components_inj ha' ha hc
        exact hs hne
    rw [hside]
    by_cases hs : s = .shadowed
    · subst hs
      simp [ofAbove]
    · have hne : ofAbove s ≠ none := fun he => hs (ofAbove_eq_none.mp he)
      by_cases hA : a = [] ∨ Between dO.map a q <;>
        by_cases hB : Between dP.map (components a) (components q) <;>
        simp [hA, hB, hs, hne, Ne.symm hne]
  · -- nothing above `q` on either side
    have hnone : ∀ c, (dP.map.get? c).isSome → ¬ AboveP (components q) c :=
      fun c h₁ h₂ => hany ⟨c, h₁, h₂⟩
    have hnoneO : ∀ k, (dO.map.get? k).isSome → ¬ AboveO q k := by
      intro k hk habove
      obtain ⟨hq, hp⟩ := plain_of_aboveO h.maps hq hk habove
      exact hnone _ (isSome_components h (Or.inr hp) (Or.inl hk)) ((aboveP_iff hp hq).mpr habove)
    rw [found_none (reads_reasonFor q) hO hnoneO, found_none (reads_pathReasonFor _) hP hnone]
    refine iff_of_true rfl ⟨hO.trans hP.symm, fun _ a s _ hd => ?_⟩
    exact absurd hd.isAbove (hnone _ (by simp [hd.get]))

theorem settled_iff (h : Agree dO dP) (hq : Kept q) :
    found (reasonFor q) (dO.map.lastLE q) =
        found (pathReasonFor (components q)) (dP.map.lastLE (components q)) ↔ Settled dO dP q := by
  have hrO := reads_reasonFor q
  have hrP := reads_pathReasonFor (components q)
  cases hP : dP.map.get? (components q) with
  | none =>
    have hO : dO.map.get? q = none := by
      by_contra hne
      have := isSome_components h hq (Or.inl (Option.isSome_iff_ne_none.mpr hne))
      simp [hP] at this
    exact settled_iff_of_none h hq hO hP
  | some t =>
    rw [found_self hrP hP]
    cases hO : dO.map.get? q with
    | some s =>
      rw [found_self hrO hO, ofSelf_injective.eq_iff]
      constructor
      · rintro rfl
        refine ⟨hO.trans hP.symm, fun hn => ?_⟩
        rw [hO] at hn
        cases hn
      · intro hset
        have := hset.self
        rw [hO, hP] at this
        exact Option.some.inj this
    | none =>
      -- `q` was only seen with a slash at its end
      have hstate := h.maps.state q hq
      rw [hP, known, hO, Option.merge_none_left] at hstate
      obtain hp | ⟨_, -, -, rfl⟩ := h.maps.keyO _ _ hstate.symm
      · exact absurd hp (not_kept_slash q)
      · refine iff_of_false (found_ne_shadowed hrO hO) fun hset => ?_
        have := hset.self
        rw [hO, hP] at this
        cases this

end

theorem forall_query_cons (c : DeletionCall) (calls : List DeletionCall)
    (Q : List DeletionCall → Bytes → Prop) :
    (∀ front p rest, c :: calls = front ++ .isDeleted p :: rest → Q front p) ↔
      (∀ p, c = .isDeleted p → Q [] p) ∧
        ∀ front p rest, calls = front ++ .isDeleted p :: rest → Q (c :: front) p := by
  constructor
  · intro h
    refine ⟨fun p hp => h [] p calls (by rw [hp]; rfl), fun front p rest hc => ?_⟩
    exact h (c :: front) p rest (by rw [hc]; rfl)
  · rintro ⟨hhead, htail⟩ front p rest hc
    cases front with
    | nil => exact hhead p (List.cons.inj hc).1
    | cons c' front =>
      obtain ⟨rfl, hrest⟩ := List.cons.inj hc
      exact htail front p rest hrest

theorem answersFrom_eq_iff {σ τ : Type} (D : Deletions σ) (E : Deletions τ) (d : σ) (e : τ)
    (calls : List DeletionCall) :
    D.answersFrom d calls = E.answersFrom e calls ↔
      ∀ front p rest, calls = front ++ .isDeleted p :: rest →
        D.isDeleted (front.foldl D.step d) p = E.isDeleted (front.foldl E.step e) p := by
  induction calls generalizing d e with
  | nil => simp [Deletions.answersFrom]
  | cons c calls ih =>
    rw [forall_query_cons]
    simp only [List.foldl_nil, List.foldl_cons]
    rw [← ih]
    cases c <;> simp [Deletions.answersFrom, Deletions.step]

def underWhiteout : List DeletionCall :=
  [.pushWhiteout [0x78, slash], .endOfLayer, .insertSeen [0x79], .isDeleted [0x78, slash, 0x63]]

/-- The byte of `-` is smaller than a slash, so `x-1` comes between `x` and `x/c`. -/
def besideWhiteout : List DeletionCall :=
  [.pushWhiteout [0x78], .endOfLayer, .insertSeen [0x78, 0x2d, 0x31], .isDeleted [0x78, slash, 0x63]]

example : osString.answers [.pushOpaque [], .endOfLayer, .isDeleted [0x61]] = [none] ∧
    pathBuf.answers [.pushOpaque [], .endOfLayer, .isDeleted [0x61]] = [some .opaqueDir] := by
  decide +kernel

example : osString.answers [.insertSeen [0x71, slash], .isDeleted [0x71]] = [none] ∧
    pathBuf.answers [.insertSeen [0x71, slash], .isDeleted [0x71]] = [some .shadowed] := by
  decide +kernel

end Answers

end ProgramExplorer.SquashAgreement
