import ProgramExplorer.SquashHistory

/-!
# Which entries the squasher hands on

Every entry that is dropped has a reason in the layers above it or in an
entry already handed on. The converse fails: an entry hidden from above is
dropped only if the nearest recorded path hides it, and another path may
stand between. The exact condition is one on the paths of the layers: which
of those that should be shown lie between a marker and what it hides.
-/

set_option autoImplicit false

namespace ProgramExplorer.SquashVisibility
open ByteStrings UnixPath Sift SquashDeletions SquashMachine SquashHistory

def stripSlashes (p : Bytes) : Bytes := p.rdropWhile (fun c => c == slash)

def SamePath (p q : Bytes) : Prop := stripSlashes p = stripSlashes q

def Ancestor (a p : Bytes) : Prop := ∃ r, p = stripSlashes a ++ slash :: r

theorem stripSlashes_slash (p : Bytes) : stripSlashes (p ++ [slash]) = stripSlashes p := by
  simp [stripSlashes]

theorem eq_without_or_slash (p : Bytes) :
    p = withoutTrailingSlash p ∨ p = withoutTrailingSlash p ++ [slash] := by
  unfold withoutTrailingSlash
  split_ifs with h
  · exact Or.inr (List.dropLast_append_getLast? slash h).symm
  · exact Or.inl rfl

theorem stripSlashes_without (p : Bytes) : stripSlashes (withoutTrailingSlash p) = stripSlashes p := by
  rcases eq_without_or_slash p with h | h
  · rw [← h]
  · conv_rhs => rw [h]
    rw [stripSlashes_slash]

theorem strip_append (p : Bytes) : ∃ s, p = stripSlashes p ++ s ∧ ∀ c ∈ s, c = slash := by
  refine ⟨p.rtakeWhile (fun c => c == slash), ?_, ?_⟩
  · exact List.rdropWhile_append_rtakeWhile.symm
  · intro c hc
    simpa using List.mem_rtakeWhile_imp hc

theorem ancestor_of_startsWith {d p : Bytes}
    (h : osStrStartsWith (withoutTrailingSlash p) (withoutTrailingSlash d) = true) :
    Ancestor d (withoutTrailingSlash p) := by
  obtain ⟨r, hr⟩ := (osStrStartsWith_iff _ _).mp h
  obtain ⟨s, hs, hall⟩ := strip_append (withoutTrailingSlash d)
  rw [stripSlashes_without] at hs
  rw [hs] at hr
  cases s with
  | nil => exact ⟨r, by simpa using hr⟩
  | cons c s =>
    have hc : c = slash := hall c (by simp)
    exact ⟨s ++ slash :: r, by simpa [hc] using hr⟩

section Reasons

variable {ε : Type} (path : ε → Bytes)

def forgetPos (c : Call ε) : Call ε := { c with pos := 0 }

/-- A marker of a strictly higher layer that hides the entry, by the path that
`fn whiteout` gives for it. -/
def MarkedAbove (layers : List (List ε)) (c : Call ε) : Prop :=
  ∃ c' ∈ order layers, c.layer < c'.layer ∧
    ((∃ h, whiteout (path c'.entry) = .ok (some (.whiteout h)) ∧
        (SamePath h (path c.entry) ∨ Ancestor h (withoutTrailingSlash (path c.entry)))) ∨
      ∃ d, whiteout (path c'.entry) = .ok (some (.opaqueDir d)) ∧
        Ancestor d (withoutTrailingSlash (path c.entry)))

theorem markOf_eq_some {p : Bytes} {f : Fact} (h : markOf p = some f) :
    ∃ w, whiteout p = .ok (some w) ∧ f = factOf w := by
  obtain ⟨w, hw⟩ := whiteout_ok p
  rw [markOf_of_whiteout hw] at h
  cases w with
  | none => simp at h
  | some w => exact ⟨w, hw, by simpa using h.symm⟩

theorem markOf_eq_none {p : Bytes} (h : whiteout p = .ok none) : markOf p = none :=
  markOf_of_whiteout h

theorem hides_reason {layers : List (List ε)} {acc : List (Call ε)} {c : Call ε}
    (h : Hides (history path layers acc c) (withoutTrailingSlash (path c.entry))) :
    MarkedAbove path layers c ∨
      ∃ c' ∈ acc, c'.layer ≠ 0 ∧ path c'.entry = withoutTrailingSlash (path c.entry) := by
  obtain ⟨f, hf, -, -, hcov⟩ := h
  rcases List.mem_append.mp hf with hf | hf
  · obtain ⟨c', hc', hlt, hm⟩ := (mem_marksAbove path).mp hf
    obtain ⟨w, hw, rfl⟩ := markOf_eq_some hm
    refine Or.inl ⟨c', hc', hlt, ?_⟩
    cases w with
    | whiteout h =>
      refine Or.inl ⟨h, hw, ?_⟩
      rcases hcov with heq | hsw
      · refine Or.inl ?_
        rw [SamePath, ← stripSlashes_without h, heq, stripSlashes_without]
      · exact Or.inr (ancestor_of_startsWith hsw)
    | opaqueDir d => exact Or.inr ⟨d, hw, ancestor_of_startsWith hcov⟩
  · obtain ⟨c', hc', h0, rfl⟩ := (mem_seen path).mp hf
    exact Or.inr ⟨c', hc', h0, hcov⟩

theorem dropped_iff_hides {layers : List (List ε)} {acc : List (Call ε)} {c : Call ε}
    (hw : whiteout (path c.entry) = .ok none) :
    Dropped path layers acc c ↔
      Hides (history path layers acc c) (withoutTrailingSlash (path c.entry)) := by
  simp [Dropped, DroppedBy, history, markOf_eq_none hw]

theorem calls_subset (layers : List (List ε)) : calls path layers ⊆ order layers := by
  rw [calls_eq]
  exact (sift_sublist _ _).subset

theorem mem_calls_split {layers : List (List ε)} {pre post : List (Call ε)} {c : Call ε}
    (ho : order layers = pre ++ c :: post) :
    c ∈ calls path layers ↔ ¬ Dropped path layers (sift (Dropped path layers) [] pre) c := by
  have hn := order_nodup layers
  rw [ho] at hn
  rw [calls_eq, ho]
  exact mem_sift_iff _ pre post c hn

theorem sift_pre_calls {layers : List (List ε)} {pre post : List (Call ε)} {c c' : Call ε}
    (ho : order layers = pre ++ c :: post) (h : c' ∈ sift (Dropped path layers) [] pre) :
    c' ∈ calls path layers ∧ Before c' c := by
  constructor
  · rw [calls_eq, ho, sift_append]
    obtain ⟨ks, hk, -⟩ := sift_eq_append (Dropped path layers)
      (sift (Dropped path layers) [] pre) (c :: post)
    simp [hk, h]
  · have hb := order_before layers
    rw [ho] at hb
    exact (List.pairwise_append.mp hb).2.2 c' ((sift_sublist _ _).subset h) c (by simp)

theorem calls_not_marker {layers : List (List ε)} {c : Call ε} (h : c ∈ calls path layers) :
    whiteout (path c.entry) = .ok none := by
  obtain ⟨pre, post, ho⟩ := List.append_of_mem (calls_subset path layers h)
  have hd := (mem_calls_split path ho).mp h
  obtain ⟨w, hw⟩ := whiteout_ok (path c.entry)
  cases w with
  | none => exact hw
  | some w => exact absurd (Or.inl (by simp [markOf_of_whiteout hw])) hd

theorem not_passed_reason {layers : List (List ε)} {c : Call ε} (hc : c ∈ order layers)
    (hw : whiteout (path c.entry) = .ok none) (hn : c ∉ calls path layers) :
    MarkedAbove path layers c ∨
      ∃ c' ∈ calls path layers, Before c' c ∧ SamePath (path c'.entry) (path c.entry) := by
  obtain ⟨pre, post, ho⟩ := List.append_of_mem hc
  have hd : Dropped path layers (sift (Dropped path layers) [] pre) c := by
    by_contra h
    exact hn ((mem_calls_split path ho).mpr h)
  rcases hides_reason path ((dropped_iff_hides path hw).mp hd) with h | ⟨c', hc', -, hp⟩
  · exact Or.inl h
  · obtain ⟨h1, h2⟩ := sift_pre_calls path ho hc'
    exact Or.inr ⟨c', h1, h2, by rw [SamePath, hp, stripSlashes_without]⟩

theorem mapIdx_call_forget (i : ℕ) (es : List ε) :
    (es.mapIdx fun k e => (⟨i, k, e⟩ : Call ε)).map forgetPos = es.map fun e => ⟨i, 0, e⟩ := by
  apply List.ext_getElem <;> simp [forgetPos]

end Reasons

section Layer

variable {ε : Type} (path : ε → Bytes)

def isMarker (p : Bytes) : Bool := (markOf p).isSome

def upper (n : ℕ) (top : List (List ε)) : List (Call ε) :=
  (top.mapIdx fun j es => es.mapIdx fun k e => ⟨j + 1 + n, k, e⟩).reverse.flatten

theorem order_split (low : List (List ε)) (es : List ε) (top : List (List ε)) :
    order (low ++ es :: top) =
      upper low.length top ++ (es.mapIdx fun k e => ⟨low.length, k, e⟩) ++ order low := by
  simp [order, locate, upper, List.mapIdx_append, List.mapIdx_cons]

theorem marksAbove_split (low : List (List ε)) (es : List ε) (top : List (List ε)) (i : ℕ)
    (hi : low.length ≤ i) :
    marksAbove path (low ++ es :: top) i = marks path (top.drop (i - low.length)).flatten := by
  obtain ⟨j, rfl⟩ := Nat.exists_eq_add_of_le hi
  have hd : (low ++ es :: top).drop (low.length + j + 1) = top.drop j := by
    rw [show low.length + j + 1 = low.length + (j + 1) by omega, List.drop_append]
    simp
  simp [marksAbove, hd]

theorem mem_upper_layer {n : ℕ} {top : List (List ε)} {c : Call ε} (h : c ∈ upper n top) :
    n < c.layer := by
  simp only [upper, List.mem_flatten, List.mem_reverse, List.mem_mapIdx] at h
  obtain ⟨cs, ⟨j, hj, rfl⟩, hc⟩ := h
  rw [mem_mapIdx_call hc]
  omega

theorem dropped_forgetPos (base : List Fact) (acc : List (Call ε)) (c : Call ε) :
    DroppedBy path base (acc.map forgetPos) (forgetPos c) ↔ DroppedBy path base acc c := by
  have hs : seen path (acc.map forgetPos) = seen path acc := by
    simp only [seen, List.filter_map, List.map_map]
    rfl
  simp [DroppedBy, hs, forgetPos]

/-- What one layer hands on, told without the layers below it, without its own
markers and without the places of its entries. -/
theorem calls_layer (low : List (List ε)) (es : List ε) (top : List (List ε)) :
    ((calls path (low ++ es :: top)).filter (fun c => c.layer = low.length)).map Call.entry =
      ((sift (DroppedBy path (marks path top.flatten))
        ((sift (fun acc c => DroppedBy path
          (marks path (top.drop (c.layer - low.length)).flatten) acc c)
          [] (upper low.length top)).map forgetPos)
        ((es.filter fun e => !isMarker (path e)).map fun e => ⟨low.length, 0, e⟩)).filter
          (fun c => c.layer = low.length)).map Call.entry := by
  set A := sift (fun acc c => DroppedBy path
    (marks path (top.drop (c.layer - low.length)).flatten) acc c) [] (upper low.length top)
  set es' : List (Call ε) := es.mapIdx fun k e => ⟨low.length, k, e⟩
  set B := sift (DroppedBy path (marks path top.flatten)) A es'
  have hA : sift (Dropped path (low ++ es :: top)) [] (upper low.length top) = A := by
    refine sift_congr _ _ _ _ ?_
    intro c hc acc
    rw [Dropped, marksAbove_split path low es top _ (mem_upper_layer hc).le]
  have hB : sift (Dropped path (low ++ es :: top)) A es' = B := by
    refine sift_congr _ _ _ _ ?_
    intro c hc acc
    have hl : c.layer = low.length := mem_mapIdx_call hc
    rw [Dropped, marksAbove_split path low es top _ hl.ge, hl]
    simp
  have hlow : (calls path (low ++ es :: top)).filter (fun c => c.layer = low.length) =
      B.filter (fun c => c.layer = low.length) := by
    rw [calls_eq, order_split, sift_append, sift_append, hA, hB]
    obtain ⟨ks, hk, hs⟩ := sift_eq_append (Dropped path (low ++ es :: top)) B (order low)
    have hks : ks.filter (fun c => c.layer = low.length) = [] := by
      rw [List.filter_eq_nil_iff]
      intro c hc
      have := mem_order_layer (hs.subset hc)
      simp
      omega
    rw [hk, List.filter_append, hks, List.append_nil]
  have hforget : B.map forgetPos = sift (DroppedBy path (marks path top.flatten))
      (A.map forgetPos)
      ((es.filter fun e => !isMarker (path e)).map fun e => ⟨low.length, 0, e⟩) := by
    rw [sift_map _ _ _ (dropped_forgetPos path _), mapIdx_call_forget,
      ← sift_filter _ (fun c => !isMarker (path c.entry)) _ _, List.filter_map]
    · rfl
    · intro acc c hc
      exact Or.inl (by simpa [isMarker] using hc)
  rw [hlow, ← hforget, List.filter_map, List.map_map]
  rfl

theorem calls_without_markers (layers : List (List ε)) (i : ℕ) :
    ((calls path layers).filter (fun c => c.layer = i)).map Call.entry =
      ((calls path (layers.modify i (·.filter fun e => !isMarker (path e)))).filter
        (fun c => c.layer = i)).map Call.entry := by
  by_cases hi : i < layers.length
  · have hl : layers.take i ++ layers[i] :: layers.drop (i + 1) = layers := by simp
    have hlen : (layers.take i).length = i := by simp; omega
    have h := calls_layer path (layers.take i) layers[i] (layers.drop (i + 1))
    have h' := calls_layer path (layers.take i) (layers[i].filter fun e => !isMarker (path e))
      (layers.drop (i + 1))
    rw [List.filter_filter] at h'
    simp only [hl, hlen, Bool.and_self] at h h'
    rw [List.modify_eq_take_cons_drop hi, h, h']
  · rw [List.modify_eq_self (by omega)]

/-- Every entry that is read and not handed on has a reason in the layers, and
the markers of a layer drop nothing of that layer. -/
theorem no_loss (layers : List (List ε)) :
    (∀ c ∈ order layers, whiteout (path c.entry) = .ok none → c ∉ calls path layers →
      MarkedAbove path layers c ∨
        ∃ c' ∈ calls path layers, SamePath (path c'.entry) (path c.entry) ∧
          (c.layer < c'.layer ∨ c'.layer = c.layer ∧ c'.pos < c.pos)) ∧
    ∀ i, ((calls path layers).filter (fun c => c.layer = i)).map Call.entry =
      ((calls path (layers.modify i (·.filter fun e => !isMarker (path e)))).filter
        (fun c => c.layer = i)).map Call.entry := by
  refine ⟨?_, calls_without_markers path layers⟩
  intro c hc hw hn
  rcases not_passed_reason path hc hw hn with h | ⟨c', hc', hb, hp⟩
  · exact Or.inl h
  · exact Or.inr ⟨c', hc', hp, hb⟩

end Layer

def dirPart (m : Bytes) : Bytes := m.rdropWhile (· != slash)

def namePart (m : Bytes) : Bytes := m.rtakeWhile (· != slash)

def WhitesOut (m p : Bytes) : Prop :=
  whPrefix <+: namePart m ∧ (namePart m).drop whPrefix.length ≠ [] ∧
    (p = dirPart m ++ (namePart m).drop whPrefix.length ∨
      dirPart m ++ (namePart m).drop whPrefix.length ++ [slash] <+: p)

/-- The marker is `d/.wh..wh..opq` and the path is strictly below `d`. -/
def ClearsBelow (m p : Bytes) : Prop :=
  namePart m = whOpaque ∧ dirPart m <+: p ∧ p ≠ dirPart m ∧ p ≠ [dot]

instance (m p : Bytes) : Decidable (WhitesOut m p) := inferInstanceAs (Decidable (_ ∧ _ ∧ _))

instance (m p : Bytes) : Decidable (ClearsBelow m p) := inferInstanceAs (Decidable (_ ∧ _ ∧ _))

section Hiding

variable {ε : Type} (path : ε → Bytes)

def normal (c : Call ε) : Bytes := withoutTrailingSlash (path c.entry)

def HiddenAbove (layers : List (List ε)) (c : Call ε) : Prop :=
  ∃ m ∈ order layers, c.layer < m.layer ∧
    (WhitesOut (normal path m) (normal path c) ∨ ClearsBelow (normal path m) (normal path c))

instance (layers : List (List ε)) (c : Call ε) : Decidable (HiddenAbove path layers c) :=
  inferInstanceAs (Decidable (∃ m ∈ order layers, _))

def Entry (c : Call ε) : Prop := whiteout (path c.entry) = .ok none

instance (c : Call ε) : Decidable (Entry path c) :=
  decidable_of_iff (markOf (path c.entry) = none) <| by
    obtain ⟨w, hw⟩ := whiteout_ok (path c.entry)
    rw [markOf_of_whiteout hw, Entry, hw]
    cases w <;> simp

def CoveredAbove (layers : List (List ε)) (c : Call ε) : Prop :=
  ∃ f ∈ marksAbove path layers c.layer, Covers f (normal path c)

instance (layers : List (List ε)) (c : Call ε) : Decidable (CoveredAbove path layers c) :=
  inferInstanceAs (Decidable (∃ f ∈ marksAbove path layers c.layer, _))

/-- An entry that a higher layer hides, by the name of a marker or as
`fn whiteout` reads one. -/
def Concealed (layers : List (List ε)) (c : Call ε) : Prop :=
  Entry path c ∧ (HiddenAbove path layers c ∨ CoveredAbove path layers c)

instance (layers : List (List ε)) : DecidablePred (Concealed path layers) :=
  fun _ => inferInstanceAs (Decidable (_ ∧ _))

instance : DecidableRel (Before (ε := ε)) := fun _ _ => inferInstanceAs (Decidable (_ ∨ _))

def readBefore (layers : List (List ε)) (c : Call ε) : List (Call ε) :=
  (order layers).filter fun c' => Before c' c

/-- The entries that are not bad, each path once: one is left out if its path
less one slash is already there. -/
def distinct (bad : Call ε → Prop) [DecidablePred bad] (cs : List (Call ε)) : List (Call ε) :=
  sift (fun acc c => bad c ∨ ¬ Entry path c ∨ ∃ c' ∈ acc, c'.layer ≠ 0 ∧ path c'.entry = normal path c) [] cs

/-- The markers above an entry and the paths read before it that are not bad. -/
def keysBefore (bad : Call ε → Prop) [DecidablePred bad] (layers : List (List ε)) (c : Call ε) :
    List Fact :=
  marksAbove path layers c.layer ++ seen path (distinct path bad (readBefore layers c))

theorem before_irrefl (c : Call ε) : ¬ Before c c := by
  rintro (h | ⟨-, h⟩) <;> exact lt_irrefl _ h

theorem before_asymm {c c' : Call ε} (h : Before c c') : ¬ Before c' c := by
  unfold Before at h ⊢
  omega

theorem readBefore_split {layers : List (List ε)} {pre post : List (Call ε)} {c : Call ε}
    (ho : order layers = pre ++ c :: post) : readBefore layers c = pre := by
  have hb := order_before layers
  rw [ho] at hb
  obtain ⟨-, hpost, hpre⟩ := List.pairwise_append.mp hb
  have hkeep : pre.filter (fun c' => decide (Before c' c)) = pre :=
    List.filter_eq_self.mpr fun c' hc' => by simpa using hpre c' hc' c (by simp)
  have hdrop : (c :: post).filter (fun c' => decide (Before c' c)) = [] := by
    refine List.filter_eq_nil_iff.mpr fun c' hc' => ?_
    rcases List.mem_cons.mp hc' with rfl | hc'
    · simpa using before_irrefl c'
    · simpa using before_asymm ((List.pairwise_cons.mp hpost).1 c' hc')
  rw [readBefore, ho, List.filter_append, hkeep, hdrop, List.append_nil]

section Avoiding

variable (bad : Call ε → Prop) [DecidablePred bad] (layers : List (List ε))
  (hentry : ∀ c, bad c → Entry path c) (hcov : ∀ c, Entry path c → CoveredAbove path layers c → bad c)
include hentry hcov

omit hentry in
/-- What no marker covers is dropped only for an equal path. -/
theorem dropped_fine (acc : List (Call ε)) (c : Call ε) :
    bad c ∨ Dropped path layers acc c ↔
      bad c ∨ ¬ Entry path c ∨ ∃ c' ∈ acc, c'.layer ≠ 0 ∧ path c'.entry = normal path c := by
  by_cases hb : bad c
  · simp [hb]
  · simp only [hb, false_or]
    obtain ⟨w, hw⟩ := whiteout_ok (path c.entry)
    cases w with
    | some w =>
      refine iff_of_true (Or.inl (by simp [markOf_of_whiteout hw])) (Or.inl ?_)
      simp [Entry, hw]
    | none =>
      have he : Entry path c := hw
      rw [dropped_iff_hides path hw, hides_iff_reached]
      simp only [he, not_true_eq_false, false_or]
      constructor
      · rintro ⟨f, hf, hc, -⟩
        rcases List.mem_append.mp hf with hf | hf
        · exact absurd (hcov c he ⟨f, hf, hc⟩) hb
        · obtain ⟨c', hc', h0, rfl⟩ := (mem_seen path).mp hf
          exact ⟨c', hc', h0, hc⟩
      · rintro ⟨c', hc', h0, hp⟩
        refine ⟨(path c'.entry, .shadowed), List.mem_append_right _ ((mem_seen path).mpr ⟨c', hc', h0, rfl⟩),
          hp, fun g _ hg => ?_⟩
        rw [hp] at hg
        exact absurd hg.2 (not_le.mpr hg.1)

omit hentry in
theorem sift_eq_distinct (cs : List (Call ε)) :
    sift (fun acc c => bad c ∨ Dropped path layers acc c) [] cs = distinct path bad cs :=
  sift_congr _ _ _ _ fun c _ acc => dropped_fine path bad layers hcov acc c

/-- The run hands on nothing bad of what it reads first exactly if every bad
entry there is reached among the keys before it. -/
theorem sift_avoids_iff_reached {xs ys : List (Call ε)} (ho : order layers = xs ++ ys) :
    (∀ c ∈ sift (Dropped path layers) [] xs, ¬ bad c) ↔
      ∀ c ∈ xs, bad c → Reached (keysBefore path bad layers c) (normal path c) := by
  rw [sift_avoids_iff]
  have hstep {pre post : List (Call ε)} {c : Call ε} (hx : xs = pre ++ c :: post) (hb : bad c) :
      Dropped path layers (sift (fun acc c => bad c ∨ Dropped path layers acc c) [] pre) c ↔
        Reached (keysBefore path bad layers c) (normal path c) := by
    rw [dropped_iff_hides path (hentry c hb), hides_iff_reached, sift_eq_distinct path bad layers hcov,
      keysBefore, @readBefore_split _ layers pre (post ++ ys) c (by simp [ho, hx])]
    rfl
  constructor
  · intro h c hc hb
    obtain ⟨pre, post, hx⟩ := List.append_of_mem hc
    exact (hstep hx hb).mp (h pre c post hx hb)
  · intro h pre c post hx hb
    exact (hstep hx hb).mpr (h c (by simp [hx]) hb)

theorem calls_avoid_iff :
    (∀ c ∈ calls path layers, ¬ bad c) ↔
      ∀ c ∈ order layers, bad c → Reached (keysBefore path bad layers c) (normal path c) := by
  rw [calls_eq]
  exact sift_avoids_iff_reached path bad layers hentry hcov (List.append_nil _).symm

/-- A run that hands on nothing bad hands on what is not, each path once. -/
theorem sift_of_reached {xs ys : List (Call ε)} (ho : order layers = xs ++ ys)
    (h : ∀ c ∈ xs, bad c → Reached (keysBefore path bad layers c) (normal path c)) :
    sift (Dropped path layers) [] xs = distinct path bad xs := by
  rw [sift_eq_of_avoids _ bad ((sift_avoids_iff_reached path bad layers hentry hcov ho).mpr h),
    sift_eq_distinct path bad layers hcov]

end Avoiding

theorem concealed_entry (layers : List (List ε)) (c : Call ε) (h : Concealed path layers c) : Entry path c :=
  h.1

theorem concealed_of_covered (layers : List (List ε)) (c : Call ε) (he : Entry path c)
    (h : CoveredAbove path layers c) : Concealed path layers c := ⟨he, Or.inr h⟩

def CleanPath (p : Bytes) : Prop :=
  hasRoot p = false ∧ ¬ [dot, slash] <+: p ∧ ¬ [slash, slash] <:+: p ∧ ¬ [slash] <:+ p

instance (p : Bytes) : Decidable (CleanPath p) := inferInstanceAs (Decidable (_ ∧ _ ∧ _ ∧ _))

def shownBefore (layers : List (List ε)) (c : Call ε) : List Fact :=
  ((readBefore layers c).filter fun c' => c'.layer ≠ 0 ∧ Entry path c' ∧ ¬ Concealed path layers c').map
    fun c' => (path c'.entry, .shadowed)

section Distinct

variable {path} {bad : Call ε → Prop} [DecidablePred bad] {cs : List (Call ε)} {c : Call ε}

theorem mem_distinct (h : c ∈ distinct path bad cs) : c ∈ cs ∧ ¬ bad c ∧ Entry path c := by
  have hkeep : ∀ (acc : List (Call ε)) (c : Call ε), decide (¬ bad c ∧ Entry path c) = false →
      bad c ∨ ¬ Entry path c ∨ ∃ c' ∈ acc, c'.layer ≠ 0 ∧ path c'.entry = normal path c := by
    intro acc c hc
    rw [decide_eq_false_iff_not, not_and_or, not_not] at hc
    exact hc.imp_right Or.inl
  rw [distinct, ← sift_filter _ _ hkeep] at h
  simpa using List.mem_filter.mp ((sift_sublist _ _).subset h)

theorem distinct_complete (hc : c ∈ cs) (hb : ¬ bad c) (he : Entry path c) :
    c ∈ distinct path bad cs ∨
      ∃ c' ∈ distinct path bad cs, c'.layer ≠ 0 ∧ path c'.entry = normal path c := by
  obtain ⟨pre, post, rfl⟩ := List.append_of_mem hc
  rw [distinct, sift_append, sift]
  split_ifs with hd
  · obtain ⟨ks, hk, -⟩ := sift_eq_append
      (fun acc c => bad c ∨ ¬ Entry path c ∨ ∃ c' ∈ acc, c'.layer ≠ 0 ∧ path c'.entry = normal path c)
      (distinct path bad pre) post
    obtain ⟨c', hc', hp⟩ := (hd.resolve_left hb).resolve_left (not_not.mpr he)
    refine Or.inr ⟨c', ?_, hp⟩
    change c' ∈ sift _ (distinct path bad pre) post
    rw [hk]
    exact List.mem_append_left _ hc'
  · obtain ⟨ks, hk, -⟩ := sift_eq_append
      (fun acc c => bad c ∨ ¬ Entry path c ∨ ∃ c' ∈ acc, c'.layer ≠ 0 ∧ path c'.entry = normal path c)
      (distinct path bad pre ++ [c]) post
    left
    change c ∈ sift _ (distinct path bad pre ++ [c]) post
    rw [hk]
    simp

end Distinct

theorem withoutTrailingSlash_clean {p : Bytes} (h : CleanPath p) : withoutTrailingSlash p = p := by
  refine if_neg fun hl => h.2.2.2 ?_
  exact ⟨p.dropLast, List.dropLast_append_getLast? slash hl⟩

theorem mem_keysBefore_clean {layers : List (List ε)} (hclean : ∀ c ∈ order layers, CleanPath (path c.entry))
    (c : Call ε) (f : Fact) :
    f ∈ keysBefore path (Concealed path layers) layers c ↔
      f ∈ marksAbove path layers c.layer ++ shownBefore path layers c := by
  rw [keysBefore, List.mem_append, List.mem_append]
  refine or_congr_right ?_
  rw [mem_seen]
  simp only [shownBefore, List.mem_map, List.mem_filter, decide_eq_true_eq]
  constructor
  · rintro ⟨c', hc', h0, rfl⟩
    obtain ⟨hm, hb, he⟩ := mem_distinct hc'
    exact ⟨c', ⟨hm, h0, he, hb⟩, rfl⟩
  · rintro ⟨c', ⟨hm, h0, he, hb⟩, rfl⟩
    have hnormal : normal path c' = path c'.entry :=
      withoutTrailingSlash_clean (hclean c' (List.mem_of_mem_filter hm))
    rcases distinct_complete hm hb he with hd | ⟨c'', hd, h0'', hp⟩
    · exact ⟨c', hd, h0, rfl⟩
    · exact ⟨c'', hd, h0'', by rw [hp, hnormal]⟩

/-- Every concealed entry is reached: a marker above covers it, or an entry
shown before has its path, and neither a marker above nor an entry shown
before has a key in between. The key of an opaque marker in the root is the
empty path, which covers nothing that is relative. -/
def AllReached (layers : List (List ε)) : Prop :=
  ∀ c ∈ order layers, Concealed path layers c →
    Reached (marksAbove path layers c.layer ++ shownBefore path layers c) (path c.entry)

instance (layers : List (List ε)) : Decidable (AllReached path layers) :=
  inferInstanceAs (Decidable (∀ c ∈ order layers, _))

/-- On clean paths no concealed entry is handed on exactly if every one is
reached, and then no entry is that a marker of a higher layer hides. -/
theorem whiteouts_hide_iff (layers : List (List ε)) (hclean : ∀ c ∈ order layers, CleanPath (path c.entry)) :
    (AllReached path layers ↔ ∀ c ∈ order layers, Concealed path layers c → c ∉ calls path layers) ∧
      (AllReached path layers → ∀ c ∈ order layers, Entry path c → HiddenAbove path layers c →
        c ∉ calls path layers) := by
  have hiff : AllReached path layers ↔
      ∀ c ∈ order layers, Concealed path layers c → c ∉ calls path layers := by
    have hreach (c : Call ε) (hc : c ∈ order layers) :
        Reached (keysBefore path (Concealed path layers) layers c) (normal path c) ↔
          Reached (marksAbove path layers c.layer ++ shownBefore path layers c) (path c.entry) := by
      rw [reached_congr (mem_keysBefore_clean path hclean c) _, normal,
        withoutTrailingSlash_clean (hclean c hc)]
    have havoid := calls_avoid_iff path (Concealed path layers) layers (concealed_entry path layers)
      (concealed_of_covered path layers)
    constructor
    · intro h c hc hb hcall
      exact havoid.mpr (fun c hc hb => (hreach c hc).mpr (h c hc hb)) c hcall hb
    · intro h c hc hb
      refine (hreach c hc).mp (havoid.mp (fun c hcall hb => ?_) c hc hb)
      exact h c (calls_subset path layers hcall) hb hcall
  exact ⟨hiff, fun h c hc he hh => hiff.mp h c hc ⟨he, Or.inl hh⟩⟩

end Hiding

-- `x/c` and `y` below `.wh.x` and `z`.
theorem whiteouts_hide_one_directory :
    let layers : List (List Bytes) :=
      [[[0x78, 0x2f, 0x63], [0x79]], [[0x2e, 0x77, 0x68, 0x2e, 0x78], [0x7a]]]
    (∀ c ∈ order layers, CleanPath c.entry) ∧ (∃ c ∈ order layers, HiddenAbove id layers c) ∧
      ∀ c ∈ order layers, Entry id c → HiddenAbove id layers c → c ∉ calls id layers :=
  ⟨by decide, by decide, (whiteouts_hide_iff id _ (by decide)).2 (by decide)⟩

-- `x/c` below `.wh.x` and `x/b`: the seen path `x/b` stands between `x` and `x/c`.
-- And `b` below an opaque root.
theorem whiteout_missed :
    let layers : List (List Bytes) :=
      [[[0x78, 0x2f, 0x63]], [[0x2e, 0x77, 0x68, 0x2e, 0x78], [0x78, 0x2f, 0x62]]]
    let root : List (List Bytes) := [[[0x62]], [whOpaque]]
    ((∀ c ∈ order layers, CleanPath c.entry) ∧
      ∃ c ∈ order layers, Entry id c ∧ HiddenAbove id layers c ∧ c ∈ calls id layers) ∧
    (∀ c ∈ order root, CleanPath c.entry) ∧
      ∃ c ∈ order root, Entry id c ∧ HiddenAbove id root c ∧ c ∈ calls id root := by
  decide

section Topmost

variable {ε : Type} (path : ε → Bytes)

/-- The entry is not hidden, and no higher layer has one at its path that is
not hidden. -/
def Topmost (layers : List (List ε)) (c : Call ε) : Prop :=
  ¬ Concealed path layers c ∧
    ∀ c' ∈ order layers, Entry path c' → normal path c' = normal path c →
      ¬ Concealed path layers c' → c'.layer ≤ c.layer

instance (layers : List (List ε)) (c : Call ε) : Decidable (Topmost path layers c) :=
  inferInstanceAs (Decidable (_ ∧ _))

def OnePerLayer (layers : List (List ε)) : Prop :=
  ∀ c ∈ order layers, ∀ c' ∈ order layers,
    c.layer = c'.layer → normal path c = normal path c' → c.pos = c'.pos

instance (layers : List (List ε)) : Decidable (OnePerLayer path layers) :=
  inferInstanceAs (Decidable (∀ c ∈ order layers, _))

def Overridden (layers : List (List ε)) (c : Call ε) : Prop :=
  Entry path c ∧ ¬ Topmost path layers c

instance (layers : List (List ε)) : DecidablePred (Overridden path layers) :=
  fun _ => inferInstanceAs (Decidable (_ ∧ _))

theorem normal_nodup {layers : List (List ε)} (h1 : OnePerLayer path layers)
    (ht : ∀ c ∈ calls path layers, Topmost path layers c) :
    ((calls path layers).map (normal path)).Nodup := by
  have hn : (calls path layers).Pairwise Before := by
    rw [calls_eq]
    exact (order_before layers).sublist (sift_sublist _ _)
  rw [List.nodup_map_iff_inj_on (hn.imp (fun hb he => by
    subst he
    exact before_irrefl _ hb))]
  intro a ha b hb hab
  have hao := calls_subset path layers ha
  have hbo := calls_subset path layers hb
  have hl : a.layer = b.layer := le_antisymm
    ((ht b hb).2 a hao (calls_not_marker path ha) hab (ht a ha).1)
    ((ht a ha).2 b hbo (calls_not_marker path hb) hab.symm (ht b hb).1)
  have hp := h1 a hao b hbo hl hab
  obtain ⟨es, he, hpa⟩ := mem_order_iff.mp hao
  obtain ⟨es', he', hpb⟩ := mem_order_iff.mp hbo
  rw [hl, he'] at he
  cases he
  rw [hp, hpb] at hpa
  cases a
  cases b
  simp_all

/-- Every overridden entry is reached among the markers above it and the paths,
as they are written, of the topmost entries read before it. -/
def OverriddenReached (layers : List (List ε)) : Prop :=
  ∀ c ∈ order layers, Overridden path layers c →
    Reached (keysBefore path (Overridden path layers) layers c) (normal path c)

instance (layers : List (List ε)) : Decidable (OverriddenReached path layers) :=
  inferInstanceAs (Decidable (∀ c ∈ order layers, _))

theorem topmost_once_iff (layers : List (List ε)) (h1 : OnePerLayer path layers) :
    (((calls path layers).map (normal path)).Nodup ∧ ∀ c ∈ calls path layers, Topmost path layers c) ↔
      OverriddenReached path layers := by
  have hcov (c : Call ε) (he : Entry path c) (hc : CoveredAbove path layers c) : Overridden path layers c :=
    ⟨he, fun ht => ht.1 ⟨he, Or.inr hc⟩⟩
  rw [OverriddenReached, ← calls_avoid_iff path (Overridden path layers) layers (fun c h => h.1) hcov]
  constructor
  · rintro ⟨-, ht⟩ c hc ho
    exact ho.2 (ht c hc)
  · intro h
    have ht : ∀ c ∈ calls path layers, Topmost path layers c := by
      intro c hc
      by_contra hn
      exact h c hc ⟨calls_not_marker path hc, hn⟩
    exact ⟨normal_nodup path h1 ht, ht⟩

end Topmost

theorem topmost_once_file_over_file :
    let layers : List (List Bytes) := [[[0x61], [0x62]], [[0x61]]]
    OnePerLayer id layers ∧ ((calls id layers).map (normal id)).Nodup ∧
      ∀ c ∈ calls id layers, Topmost id layers c :=
  ⟨by decide, (topmost_once_iff id _ (by decide)).mpr (by decide)⟩

-- The directory `d/` of both layers: it is recorded as `d/` and looked up as `d`.
theorem directory_passed_twice :
    let layers : List (List Bytes) := [[[0x64, 0x2f]], [[0x64, 0x2f]]]
    OnePerLayer id layers ∧ ¬ ((calls id layers).map (normal id)).Nodup ∧
      ∃ c ∈ calls id layers, ¬ Topmost id layers c := by
  decide

end ProgramExplorer.SquashVisibility
