import ProgramExplorer.SquashVisibility

/-!
# The bottom layer is not recorded

In the layer that is read last `squash_layer` does not store the paths it
hands on. Later entries of that layer can tell: a path that comes twice is
handed on twice, and a path that would have stood between a whiteout and an
entry below it is missing. An empty layer below takes the shortcut away, so
the two runs are compared entry by entry. Where the layers above show what
they should, the difference can be read off the paths.
-/

set_option autoImplicit false

namespace ProgramExplorer.SquashBottom
open ByteStrings UnixPath Sift SquashDeletions SquashMachine SquashHistory SquashVisibility

variable {ε : Type} (path : ε → Bytes)

/-- What is known when the bottom layer is read. -/
def known (layers : List (List ε)) : List Fact :=
  marksAbove path layers 0 ++ seen path (calls path layers)

/-- Whether an entry of the bottom layer is handed on, by what is known above it. -/
def shown (layers : List (List ε)) (e : ε) : Bool :=
  !isMarker (path e) && !decide (Hides (known path layers) (withoutTrailingSlash (path e)))

/-- The paths that the shortcut does not store. -/
def unrecorded (layers : List (List ε)) (pre : List ε) : List Fact :=
  (pre.filter (shown path layers)).map fun e => (path e, .shadowed)

def shiftUp (c : Call ε) : Call ε := { c with layer := c.layer + 1 }

/-- All paths handed on, those of the bottom layer too. -/
def recorded (acc : List (Call ε)) : List Fact := acc.map fun c => (path c.entry, .shadowed)

/-- How an entry is treated if the bottom layer has no shortcut. -/
def DroppedRecording (layers : List (List ε)) (acc : List (Call ε)) (c : Call ε) : Prop :=
  (markOf (path c.entry)).isSome = true ∨
    Hides (marksAbove path layers c.layer ++ recorded path acc) (withoutTrailingSlash (path c.entry))

instance (layers : List (List ε)) (acc : List (Call ε)) (c : Call ε) :
    Decidable (DroppedRecording path layers acc c) := inferInstanceAs (Decidable (_ ∨ _))

theorem order_empty_below (layers : List (List ε)) :
    order ([] :: layers) = (order layers).map shiftUp := by
  have hshift : (locate layers).map (·.map shiftUp) =
      layers.mapIdx fun i es => es.mapIdx fun k e => (⟨i + 1, k, e⟩ : Call ε) := by
    apply List.ext_getElem
    · simp [locate]
    · intro i _ _
      apply List.ext_getElem <;> simp [locate, shiftUp]
  have hlocate : locate ([] :: layers) = [] :: (locate layers).map (·.map shiftUp) := by
    rw [hshift]
    simp [locate, List.mapIdx_cons]
  rw [order, hlocate, order, List.map_flatten, List.reverse_cons, List.flatten_append, List.map_reverse]
  simp

theorem seen_shiftUp (acc : List (Call ε)) : seen path (acc.map shiftUp) = recorded path acc := by
  simp [seen, recorded, shiftUp, List.filter_map, Function.comp_def]

theorem calls_empty_below (layers : List (List ε)) :
    calls path ([] :: layers) = (sift (DroppedRecording path layers) [] (order layers)).map shiftUp := by
  rw [calls_eq, order_empty_below,
    sift_map (DroppedRecording path layers) (Dropped path ([] :: layers)) shiftUp]
  · rfl
  · intro acc c
    have hmarks : marksAbove path ([] :: layers) (shiftUp c).layer = marksAbove path layers c.layer := rfl
    rw [Dropped, DroppedBy, DroppedRecording, seen_shiftUp, hmarks]
    rfl

section Bottom

variable (es : List ε) (top : List (List ε))

def bottomCalls : List (Call ε) := es.mapIdx fun k e => ⟨0, k, e⟩

/-- What the layers above hand on. -/
def handedOn : List (Call ε) := sift (Dropped path (es :: top)) [] (upper 0 top)

theorem order_bottom : order (es :: top) = upper 0 top ++ bottomCalls es := by
  have h := order_split [] es top
  simpa [order, locate, bottomCalls] using h

theorem handedOn_layer {c : Call ε} (h : c ∈ handedOn path es top) : c.layer ≠ 0 :=
  (mem_upper_layer ((sift_sublist _ _).subset h)).ne'

theorem seen_of_layer_ne {acc : List (Call ε)} (h : ∀ c ∈ acc, c.layer ≠ 0) :
    seen path acc = recorded path acc := by
  rw [seen, recorded, List.filter_eq_self.mpr]
  simpa using h

theorem seen_append_bottomCalls {acc own : List (Call ε)} (h : ∀ c ∈ own, c.layer = 0) :
    seen path (acc ++ own) = seen path acc := by
  have hnone : own.filter (fun c => c.layer ≠ 0) = [] := by
    rw [List.filter_eq_nil_iff]
    intro c hc
    simp [h c hc]
  rw [seen, List.filter_append, hnone, List.append_nil, seen]

/-- Above the bottom layer there is no difference. -/
theorem handedOn_recording :
    sift (DroppedRecording path (es :: top)) [] (upper 0 top) = handedOn path es top := by
  refine sift_congr_within (P := fun c => c.layer ≠ 0) _ _ (by simp)
    (fun c hc => (mem_upper_layer hc).ne') ?_
  intro c hc acc hacc
  rw [Dropped, DroppedBy, DroppedRecording, seen_of_layer_ne path hacc]

end Bottom

section Difference

theorem not_shown_iff (known : List Fact) (p q : Bytes) :
    (!isMarker p && !decide (Hides known q)) = false ↔ (markOf p).isSome = true ∨ Hides known q := by
  cases h : (markOf p).isSome <;> simp [isMarker, h]

variable (es : List ε) (top : List (List ε))

/-- The bottom layer with the shortcut is a filter. -/
theorem calls_bottom :
    calls path (es :: top) = handedOn path es top ++
      (bottomCalls es).filter fun c => shown path (es :: top) c.entry := by
  -- what is known is written with the calls, so it is found in two steps
  have hfilter : calls path (es :: top) = handedOn path es top ++ (bottomCalls es).filter fun c =>
      !isMarker (path c.entry) && !decide (Hides (marksAbove path (es :: top) 0 ++
        seen path (handedOn path es top)) (withoutTrailingSlash (path c.entry))) := by
    rw [calls_eq, order_bottom, sift_append]
    refine sift_eq_filter _ _ _ _ ?_
    intro pre c post hsplit
    have hlayer : ∀ c' ∈ pre ++ c :: post, c'.layer = 0 :=
      fun c' hc' => mem_mapIdx_call (hsplit ▸ hc')
    have hc : c.layer = 0 := hlayer c (by simp)
    have hpre : ∀ c' ∈ pre, c'.layer = 0 := fun c' hc' => hlayer c' (by simp [hc'])
    rw [Dropped, DroppedBy, hc, seen_append_bottomCalls path
      (fun c' hc' => hpre c' (List.mem_of_mem_filter hc')), not_shown_iff]
    rfl
  have hseen : seen path (calls path (es :: top)) = seen path (handedOn path es top) := by
    rw [hfilter]
    exact seen_append_bottomCalls path fun c hc => mem_mapIdx_call (List.mem_of_mem_filter hc)
  simp only [shown, known, hseen]
  exact hfilter

theorem known_eq : known path (es :: top) =
    marksAbove path (es :: top) 0 ++ recorded path (handedOn path es top) := by
  have hown : ∀ c ∈ (bottomCalls es).filter (fun c => shown path (es :: top) c.entry), c.layer = 0 :=
    fun c hc => mem_mapIdx_call (List.mem_of_mem_filter hc)
  rw [known, calls_bottom, seen_append_bottomCalls path hown,
    seen_of_layer_ne path fun c hc => handedOn_layer path es top hc]

/-- Without the shortcut an entry is judged by the paths of its own layer too. -/
theorem droppedRecording_bottom {pre : List (Call ε)} {c : Call ε} (hc : c.layer = 0) :
    DroppedRecording path (es :: top) (handedOn path es top ++
        pre.filter fun c => shown path (es :: top) c.entry) c ↔
      (markOf (path c.entry)).isSome = true ∨
        Hides (known path (es :: top) ++ unrecorded path (es :: top) (pre.map Call.entry))
          (withoutTrailingSlash (path c.entry)) := by
  have hown : recorded path (pre.filter fun c => shown path (es :: top) c.entry) =
      unrecorded path (es :: top) (pre.map Call.entry) := by
    simp [recorded, unrecorded, List.filter_map, Function.comp_def]
  rw [DroppedRecording, hc, known_eq, recorded, List.map_append, ← recorded, ← recorded, hown,
    List.append_assoc]

theorem split_entries {pre post : List (Call ε)} {c : Call ε} (h : bottomCalls es = pre ++ c :: post) :
    es = pre.map Call.entry ++ c.entry :: post.map Call.entry := by
  have h' := congrArg (List.map Call.entry) h
  rw [bottomCalls, mapIdx_call_entries] at h'
  simpa using h'

theorem split_bottomCalls {pre post : List ε} {e : ε} (h : es = pre ++ e :: post) :
    ∃ post', bottomCalls es = bottomCalls pre ++ ⟨0, pre.length, e⟩ :: post' := by
  refine ⟨post.mapIdx fun i e => ⟨0, i + 1 + pre.length, e⟩, ?_⟩
  rw [h, bottomCalls, List.mapIdx_append, List.mapIdx_cons]
  simp [bottomCalls]

/-- An empty layer below the others changes nothing exactly if each entry of the
bottom layer is judged alike with and without the paths that were handed on
before it in that layer. -/
theorem same_calls_iff (layers : List (List ε)) :
    (calls path ([] :: layers)).map Call.entry = (calls path layers).map Call.entry ↔
      ∀ pre e post, layers.head? = some (pre ++ e :: post) → whiteout (path e) = .ok none →
        (Hides (known path layers ++ unrecorded path layers pre) (withoutTrailingSlash (path e)) ↔
          Hides (known path layers) (withoutTrailingSlash (path e))) := by
  cases layers with
  | nil =>
    refine iff_of_true ?_ ?_
    · rw [calls_eq, calls_eq]
      rfl
    · intro pre e post h
      cases h
  | cons es top =>
    have hentry : ∀ cs : List (Call ε), (cs.map shiftUp).map Call.entry = cs.map Call.entry := by
      intro cs
      rw [List.map_map]
      rfl
    rw [calls_empty_below, hentry, order_bottom, sift_append, handedOn_recording, calls_bottom]
    constructor
    · intro h pre e post hes hw
      obtain ⟨post', hsplit⟩ := split_bottomCalls es (Option.some.inj hes)
      have hdec := decides_of_sift_eq_filter (f := Call.entry) _
        (fun c c' hcc => by rw [hcc]) h hsplit
      rw [droppedRecording_bottom path es top rfl, shown, not_shown_iff, markOf_eq_none hw] at hdec
      simpa [bottomCalls, mapIdx_call_entries] using hdec
    · intro h
      rw [sift_eq_filter _ (fun c => shown path (es :: top) c.entry)]
      intro pre c post hsplit
      have hc : c.layer = 0 := mem_mapIdx_call (hsplit ▸ List.mem_append_right _ (List.mem_cons_self))
      rw [droppedRecording_bottom path es top hc, shown, not_shown_iff]
      obtain ⟨w, hw⟩ := whiteout_ok (path c.entry)
      cases w with
      | some w => simp [markOf_of_whiteout hw]
      | none =>
        have hiff := h _ _ _ (congrArg some (split_entries es hsplit)) hw
        rw [markOf_eq_none hw]
        simpa using hiff

end Difference

section Paths

/-- Whether the path of an entry is judged otherwise if `paths` are stored
besides `fs`. -/
def Disturbed (fs : List Fact) (paths : List Bytes) (q : Bytes) : Prop :=
  q ∈ paths ∧ ¬ Reached fs q ∨
    q ∉ paths ∧ ∃ f ∈ fs, Covers f q ∧ (∀ g ∈ fs, ¬ (f.1 < g.1 ∧ g.1 ≤ q)) ∧ ∃ p ∈ paths, f.1 < p ∧ p ≤ q

instance (fs : List Fact) (paths : List Bytes) (q : Bytes) : Decidable (Disturbed fs paths q) :=
  inferInstanceAs (Decidable (_ ∨ _))

theorem withoutTrailingSlash_le (p : Bytes) : withoutTrailingSlash p ≤ p := by
  rcases eq_without_or_slash p with h | h
  · exact h.symm.le
  · conv_rhs => rw [h]
    exact (lt_append_cons _ slash []).le

def asSeen (paths : List Bytes) : List Fact := paths.map fun p => (p, .shadowed)

theorem reached_append_seen (fs : List Fact) (paths : List Bytes) (q : Bytes) :
    Reached (fs ++ asSeen paths) q ↔ q ∈ paths ∨
      ∃ f ∈ fs, Covers f q ∧ (∀ g ∈ fs, ¬ (f.1 < g.1 ∧ g.1 ≤ q)) ∧ ∀ p ∈ paths, ¬ (f.1 < p ∧ p ≤ q) := by
  constructor
  · rintro ⟨f, hf, hc, hno⟩
    rcases List.mem_append.mp hf with hf | hf
    · refine Or.inr ⟨f, hf, hc, fun g hg => hno g (List.mem_append_left _ hg), fun p hp => ?_⟩
      exact hno (p, .shadowed) (List.mem_append_right _ (List.mem_map_of_mem hp))
    · obtain ⟨p, hp, rfl⟩ := List.mem_map.mp hf
      obtain rfl : p = q := hc
      exact Or.inl hp
  · rintro (hq | ⟨f, hf, hc, hno, hno'⟩)
    · refine ⟨(q, .shadowed), List.mem_append_right _ (List.mem_map_of_mem hq), rfl, fun g _ hg => ?_⟩
      exact absurd hg.2 (not_le.mpr hg.1)
    · refine ⟨f, List.mem_append_left _ hf, hc, fun g hg => ?_⟩
      rcases List.mem_append.mp hg with hg | hg
      · exact hno g hg
      · obtain ⟨p, hp, rfl⟩ := List.mem_map.mp hg
        exact hno' p hp

/-- Two facts that reach one path have one key. -/
theorem reaching_key {fs : List Fact} {q : Bytes} {f g : Fact} (hf : f ∈ fs) (hg : g ∈ fs)
    (hcf : Covers f q) (hcg : Covers g q) (hnof : ∀ g ∈ fs, ¬ (f.1 < g.1 ∧ g.1 ≤ q))
    (hnog : ∀ f ∈ fs, ¬ (g.1 < f.1 ∧ f.1 ≤ q)) : f.1 = g.1 := by
  rcases lt_trichotomy f.1 g.1 with h | h | h
  · exact absurd ⟨h, covers_le hcg⟩ (hnof g hg)
  · exact h
  · exact absurd ⟨h, covers_le hcf⟩ (hnog f hf)

theorem alike_iff (fs : List Fact) (paths : List Bytes) (q : Bytes) :
    (Reached (fs ++ asSeen paths) q ↔ Reached fs q) ↔ ¬ Disturbed fs paths q := by
  rw [reached_append_seen, Disturbed]
  by_cases hq : q ∈ paths
  · simp [hq]
  · simp only [hq, false_or, false_and, not_false_eq_true, true_and]
    constructor
    · rintro h ⟨f, hf, hc, hno, p, hp, hlt, hle⟩
      obtain ⟨g, hg, hcg, hnog, hnop⟩ := h.mpr ⟨f, hf, hc, hno⟩
      rw [reaching_key hf hg hc hcg hno hnog] at hlt
      exact hnop p hp ⟨hlt, hle⟩
    · intro h
      refine ⟨fun ⟨f, hf, hc, hno, _⟩ => ⟨f, hf, hc, hno⟩, fun ⟨f, hf, hc, hno⟩ => ?_⟩
      exact ⟨f, hf, hc, hno, fun p hp hb => h ⟨f, hf, hc, hno, p, hp, hb⟩⟩

/-- What the layers above the bottom one leave, if they show what they should:
their markers, and the paths of their entries that are not concealed. -/
def upperKeys (layers : List (List ε)) : List Fact :=
  marksAbove path layers 0 ++
    seen path (distinct path (Concealed path layers) ((order layers).filter fun c => c.layer ≠ 0))

def UpperReached (layers : List (List ε)) : Prop :=
  ∀ c ∈ order layers, c.layer ≠ 0 → Concealed path layers c →
    Reached (keysBefore path (Concealed path layers) layers c) (normal path c)

instance (layers : List (List ε)) : Decidable (UpperReached path layers) :=
  inferInstanceAs (Decidable (∀ c ∈ order layers, _))

def bottomBefore (layers : List (List ε)) (c : Call ε) : List (Call ε) :=
  (order layers).filter fun r => r.layer = 0 ∧ r.pos < c.pos ∧ Entry path r

def shownPaths (layers : List (List ε)) (c : Call ε) : List Bytes :=
  ((bottomBefore path layers c).filter fun r => ¬ Reached (upperKeys path layers) (normal path r)).map
    fun r => path r.entry

/-- Stored, the path of `r` would decide over `c`: it is the path of `c`, or it
stands between a marker and `c` and no marker with that key covers `r`. -/
def StandsBefore (layers : List (List ε)) (r c : Call ε) : Prop :=
  path r.entry = normal path c ∨
    ∃ f ∈ marksAbove path layers 0, Covers f (normal path c) ∧
      f.1 < path r.entry ∧ path r.entry ≤ normal path c ∧
      ∀ g ∈ marksAbove path layers 0, g.1 = f.1 → ¬ Covers g (normal path r)

instance (layers : List (List ε)) (r c : Call ε) : Decidable (StandsBefore path layers r c) :=
  inferInstanceAs (Decidable (_ ∨ _))

def handedPaths (layers : List (List ε)) (c : Call ε) : List Bytes :=
  ((bottomBefore path layers c).filter fun r => ¬ Reached (known path layers) (normal path r)).map
    fun r => path r.entry

variable {path} {layers top : List (List ε)} {pre post : List ε} {e : ε}

theorem order_bottom_split : ∃ post', order ((pre ++ e :: post) :: top) =
    upper 0 top ++ (bottomCalls pre ++ ⟨0, pre.length, e⟩ :: post') ∧
      ∀ c ∈ post', pre.length < c.pos := by
  refine ⟨post.mapIdx fun i e => ⟨0, i + 1 + pre.length, e⟩, ?_, ?_⟩
  · rw [order_bottom, bottomCalls, List.mapIdx_append, List.mapIdx_cons]
    simp [bottomCalls]
  · intro c hc
    obtain ⟨i, hi, rfl⟩ := List.mem_mapIdx.mp hc
    dsimp only
    omega

theorem bottomBefore_split :
    bottomBefore path ((pre ++ e :: post) :: top) ⟨0, pre.length, e⟩ =
      (bottomCalls pre).filter fun r => Entry path r := by
  obtain ⟨post', ho, hpost⟩ := @order_bottom_split _ top pre post e
  have hupper : (upper 0 top).filter (fun r => decide (r.layer = 0 ∧ r.pos < pre.length ∧ Entry path r)) =
      [] := by
    refine List.filter_eq_nil_iff.mpr fun r hr => ?_
    simp [(mem_upper_layer hr).ne']
  have hafter : (⟨0, pre.length, e⟩ :: post').filter
      (fun r => decide (r.layer = 0 ∧ r.pos < pre.length ∧ Entry path r)) = [] := by
    refine List.filter_eq_nil_iff.mpr fun r hr => ?_
    rcases List.mem_cons.mp hr with rfl | hr
    · simp
    · simp [(hpost r hr).not_gt]
  have hpre : (bottomCalls pre).filter
      (fun r => decide (r.layer = 0 ∧ r.pos < pre.length ∧ Entry path r)) =
        (bottomCalls pre).filter fun r => Entry path r := by
    refine List.filter_congr fun r hr => ?_
    obtain ⟨i, hi, rfl⟩ := List.mem_mapIdx.mp hr
    simp [hi]
  rw [bottomBefore, ho, List.filter_append, List.filter_append, hupper, hafter, hpre]
  simp

theorem shown_iff (layers : List (List ε)) (c : Call ε) :
    shown path layers c.entry = true ↔ Entry path c ∧ ¬ Reached (known path layers) (normal path c) := by
  rw [shown, Bool.and_eq_true, Bool.not_eq_true', Bool.not_eq_true', decide_eq_false_iff_not,
    hides_iff_reached]
  refine and_congr_left fun _ => ?_
  obtain ⟨w, hw⟩ := whiteout_ok (path c.entry)
  rw [isMarker, markOf_of_whiteout hw, Entry, hw]
  cases w <;> simp

theorem bottomCalls_filter (keep : ε → Bool) (es : List ε) :
    ((bottomCalls es).filter fun r => keep r.entry).map Call.entry = es.filter keep := by
  conv_rhs => rw [← mapIdx_call_entries 0 es, List.filter_map]
  rfl

theorem handedPaths_split :
    handedPaths path ((pre ++ e :: post) :: top) ⟨0, pre.length, e⟩ =
      (pre.filter (shown path ((pre ++ e :: post) :: top))).map path := by
  have hcalls : ((bottomCalls pre).filter fun r => Entry path r).filter
      (fun r => decide (¬ Reached (known path ((pre ++ e :: post) :: top)) (normal path r))) =
        (bottomCalls pre).filter (fun r => shown path ((pre ++ e :: post) :: top) r.entry) := by
    rw [List.filter_filter]
    refine List.filter_congr fun r _ => ?_
    rw [Bool.eq_iff_iff, shown_iff]
    simp [and_comm]
  rw [handedPaths, bottomBefore_split, hcalls,
    ← bottomCalls_filter (shown path ((pre ++ e :: post) :: top)) pre, List.map_map]
  rfl

/-- The two runs hand on the same entries exactly if no path handed on before
it in the bottom layer would disturb an entry there. -/
theorem same_calls_iff_disturbed (layers : List (List ε)) :
    (calls path ([] :: layers)).map Call.entry = (calls path layers).map Call.entry ↔
      ∀ c ∈ order layers, c.layer = 0 → Entry path c →
        ¬ Disturbed (known path layers) (handedPaths path layers c) (normal path c) := by
  have halike {pre post : List ε} {e : ε} {top : List (List ε)}
      (hl : layers = (pre ++ e :: post) :: top) :
      (Hides (known path layers ++ unrecorded path layers pre) (withoutTrailingSlash (path e)) ↔
          Hides (known path layers) (withoutTrailingSlash (path e))) ↔
        ¬ Disturbed (known path layers) (handedPaths path layers ⟨0, pre.length, e⟩)
          (withoutTrailingSlash (path e)) := by
    have hun : unrecorded path layers pre = asSeen (handedPaths path layers ⟨0, pre.length, e⟩) := by
      rw [hl, handedPaths_split, asSeen, List.map_map]
      rfl
    rw [hun, hides_iff_reached, hides_iff_reached, alike_iff]
  rw [same_calls_iff]
  constructor
  · intro h c hc h0 he
    obtain ⟨es, hes, hpos⟩ := mem_order_iff.mp hc
    obtain ⟨layer, pos, e⟩ := c
    obtain rfl : layer = 0 := h0
    change es[pos]? = some e at hpos
    obtain ⟨hlt, rfl⟩ := List.getElem?_eq_some_iff.mp hpos
    cases layers with
    | nil => cases hes
    | cons es' top =>
      obtain rfl : es' = es := by simpa using hes
      have hsplit : es' = es'.take pos ++ es'[pos] :: es'.drop (pos + 1) := by simp
      have hlen : (es'.take pos).length = pos := List.length_take_of_le hlt.le
      have hal := @halike (es'.take pos) (es'.drop (pos + 1)) es'[pos] top (by rw [← hsplit])
      rw [hlen] at hal
      exact hal.mp (h _ _ _ (by rw [← hsplit]; rfl) he)
  · intro h pre e post hhead hw
    cases layers with
    | nil => cases hhead
    | cons es top =>
      obtain rfl : es = pre ++ e :: post := by simpa using hhead
      refine (halike rfl).mpr (h ⟨0, pre.length, e⟩ ?_ rfl hw)
      exact mem_order_iff.mpr ⟨_, rfl, by simp⟩

theorem filter_upper {es : List ε} :
    (order (es :: top)).filter (fun c => c.layer ≠ 0) = upper 0 top := by
  have hupper : (upper 0 top).filter (fun c => decide (c.layer ≠ 0)) = upper 0 top :=
    List.filter_eq_self.mpr fun c hc => by simpa using (mem_upper_layer hc).ne'
  have hbottom : (bottomCalls es).filter (fun c => decide (c.layer ≠ 0)) = [] :=
    List.filter_eq_nil_iff.mpr fun c hc => by simp [mem_mapIdx_call hc]
  rw [order_bottom, List.filter_append, hupper, hbottom, List.append_nil]

theorem known_of_upperReached (h : UpperReached path layers) (hne : layers ≠ []) :
    known path layers = upperKeys path layers := by
  obtain ⟨es, top, rfl⟩ := List.exists_cons_of_ne_nil hne
  have hupper : handedOn path es top = distinct path (Concealed path (es :: top)) (upper 0 top) := by
    refine sift_of_reached path _ _ (concealed_entry path _) (concealed_of_covered path _)
      (order_bottom es top) fun c hc hb => ?_
    exact h c (by rw [order_bottom]; exact List.mem_append_left _ hc) (mem_upper_layer hc).ne' hb
  have hlayer : ∀ c ∈ handedOn path es top, c.layer ≠ 0 := fun c hc => handedOn_layer path es top hc
  rw [known_eq, ← seen_of_layer_ne path hlayer, hupper, upperKeys, filter_upper]

/-- Where no pair stands in the way nothing is disturbed, whatever the layers
above show. -/
theorem not_disturbed_of_pairs {c : Call ε}
    (h : ∀ r ∈ bottomBefore path layers c, ¬ StandsBefore path layers r c) :
    ¬ Disturbed (known path layers) (handedPaths path layers c) (normal path c) := by
  have hpath {p : Bytes} (hp : p ∈ handedPaths path layers c) : ∃ r ∈ bottomBefore path layers c,
      ¬ Reached (known path layers) (normal path r) ∧ path r.entry = p := by
    obtain ⟨r, hr, rfl⟩ := List.mem_map.mp hp
    obtain ⟨hr, hn⟩ := List.mem_filter.mp hr
    exact ⟨r, hr, by simpa using hn, rfl⟩
  rintro (⟨hq, -⟩ | ⟨-, f, hf, hc, hno, p, hp, hlt, hle⟩)
  · obtain ⟨r, hr, -, hp⟩ := hpath hq
    exact h r hr (Or.inl hp)
  · obtain ⟨r, hr, hn, rfl⟩ := hpath hp
    rcases List.mem_append.mp hf with hf' | hf'
    · refine h r hr (Or.inr ⟨f, hf', hc, hlt, hle, fun g hg hkey hcov => hn ?_⟩)
      -- a marker with that key would reach the earlier entry too
      refine ⟨g, List.mem_append_left _ hg, hcov, fun g' hg' hb => hno g' hg' ?_⟩
      rw [hkey] at hb
      exact ⟨hb.1, hb.2.trans ((withoutTrailingSlash_le _).trans hle)⟩
    · obtain ⟨c', -, -, rfl⟩ := (mem_seen path).mp hf'
      have hkey : path c'.entry = normal path c := hc
      exact absurd (hle.trans hkey.symm.le) (not_le.mpr hlt)

end Paths

end ProgramExplorer.SquashBottom
