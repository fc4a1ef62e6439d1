import ProgramExplorer.Sift
import ProgramExplorer.SquashMachine

/-!
# What the squasher knows when it reads an entry

The deletion map is replaced by the list of facts behind it: the markers of
the layers above, and the paths already handed to the callback. With these
the whole run is one scan over the entries in reading order, and later
modules argue about that scan and not about the map.
-/

set_option autoImplicit false

namespace ProgramExplorer.SquashHistory
open ByteStrings UnixPath Sift SquashDeletions SquashMachine

theorem whiteout_ok (p : Bytes) : ∃ w, whiteout p = .ok w := by
  unfold whiteout
  cases hf : fileName p with
  | none => exact ⟨_, rfl⟩
  | some name =>
    have hp : ∃ q, parent p = some q := by
      unfold fileName at hf
      unfold parent
      split at hf
      · rename_i hl
        rw [hl]
        exact ⟨_, rfl⟩
      · simp at hf
    obtain ⟨q, hq⟩ := hp
    simp only [hq]
    split_ifs <;> exact ⟨_, rfl⟩

def factOf : Whiteout → Fact
  | .whiteout p => (withoutTrailingSlash p, .whiteout)
  | .opaqueDir p => (withoutTrailingSlash p, .opaqueDir)

def markOf (p : Bytes) : Option Fact :=
  match whiteout p with
  | .ok (some w) => some (factOf w)
  | _ => none

section Facts

variable {ε : Type} (path : ε → Bytes)

def marks (es : List ε) : List Fact := es.filterMap (fun e => markOf (path e))

def marksAbove (layers : List (List ε)) (i : ℕ) : List Fact :=
  marks path (layers.drop (i + 1)).flatten

def seen (acc : List (Call ε)) : List Fact :=
  (acc.filter (fun c => c.layer ≠ 0)).map (fun c => (path c.entry, .shadowed))

def history (layers : List (List ε)) (acc : List (Call ε)) (c : Call ε) : List Fact :=
  marksAbove path layers c.layer ++ seen path acc

def DroppedBy (base : List Fact) (acc : List (Call ε)) (c : Call ε) : Prop :=
  (markOf (path c.entry)).isSome = true ∨
    Hides (base ++ seen path acc) (withoutTrailingSlash (path c.entry))

instance (base : List Fact) (acc : List (Call ε)) (c : Call ε) :
    Decidable (DroppedBy path base acc c) := inferInstanceAs (Decidable (_ ∨ _))

/-- The entry is a marker, or the facts known when it is read hide it. -/
def Dropped (layers : List (List ε)) (acc : List (Call ε)) (c : Call ε) : Prop :=
  DroppedBy path (marksAbove path layers c.layer) acc c

instance (layers : List (List ε)) (acc : List (Call ε)) (c : Call ε) :
    Decidable (Dropped path layers acc c) :=
  inferInstanceAs (Decidable (DroppedBy path _ acc c))

end Facts

section Run

variable {ε : Type} (path : ε → Bytes)

/-- The map stands for the markers above and the paths handed on; the queues
hold the markers of the layer being read. -/
structure Knows (base : List Fact) (s : Squasher (List (Call ε))) (queued : List Fact) : Prop where
  records : Records s.deletions (base ++ seen path s.cb)
  queues : ∀ f, f ∈ s.deletions.whiteoutQ.map (fun k => (k, DeletionState.whiteout)) ++
    s.deletions.opaqueQ.map (fun k => (k, DeletionState.opaqueDir)) ↔ f ∈ queued

theorem markOf_of_whiteout {p : Bytes} {w : Option Whiteout} (h : whiteout p = .ok w) :
    markOf p = w.map factOf := by
  unfold markOf
  rw [h]
  cases w <;> rfl

theorem knows_push {base queued : List Fact} {s : Squasher (List (Call ε))}
    (h : Knows path base s queued) (w : Whiteout) :
    Knows path base { s with deletions := match w with
      | .whiteout p => s.deletions.pushWhiteout p
      | .opaqueDir p => s.deletions.pushOpaque p } (queued ++ [factOf w]) := by
  cases w with
  | whiteout p =>
    refine ⟨h.records, fun f => ?_⟩
    have hq := h.queues f
    simp only [DeletionsOsString.pushWhiteout, factOf, List.map_append, List.map_cons,
      List.map_nil, List.mem_append, List.mem_singleton] at hq ⊢
    tauto
  | opaqueDir p =>
    refine ⟨h.records, fun f => ?_⟩
    have hq := h.queues f
    simp only [DeletionsOsString.pushOpaque, factOf, List.map_append, List.map_cons,
      List.map_nil, List.mem_append, List.mem_singleton] at hq ⊢
    tauto

theorem seen_append_bottom (acc : List (Call ε)) (c : Call ε) (h : c.layer = 0) :
    seen path (acc ++ [c]) = seen path acc := by
  simp [seen, h]

theorem seen_append_upper (acc : List (Call ε)) (c : Call ε) (h : c.layer ≠ 0) :
    seen path (acc ++ [c]) = seen path acc ++ [(path c.entry, .shadowed)] := by
  simp [seen, h]

theorem knows_seen {base queued : List Fact} {s : Squasher (List (Call ε))}
    (h : Knows path base s queued) (c : Call ε) :
    Knows path base { s with
      cb := s.cb ++ [c]
      deletions := if c.layer ≠ 0 then s.deletions.insertSeen (path c.entry)
        else s.deletions } queued := by
  by_cases hc : c.layer = 0
  · refine ⟨?_, ?_⟩
    · simpa [hc, seen_append_bottom path s.cb c hc] using h.records
    · simpa [hc] using h.queues
  · refine ⟨?_, ?_⟩
    · simp only [hc, ne_eq, not_false_eq_true, if_true, seen_append_upper path s.cb c hc]
      refine records_congr (records_insert h.records (path c.entry) .shadowed) ?_
      intro f
      simp only [List.mem_cons, List.mem_append, List.not_mem_nil, or_false]
      tauto
    · simpa [hc, DeletionsOsString.insertSeen, DeletionsOsString.insert] using h.queues

theorem squashEntry_step {base queued : List Fact} {s : Squasher (List (Call ε))}
    (h : Knows path base s queued) (c : Call ε) :
    ∃ s', squashEntry (fun c : Call ε => path c.entry) recorder c.layer c s = .ok () s' ∧
      s'.cb = sift (DroppedBy path base) s.cb [c] ∧
      Knows path base s' (queued ++
        if c.layer ≠ 0 then (markOf (path c.entry)).toList else []) := by
  obtain ⟨w, hw⟩ := whiteout_ok (path c.entry)
  have hm := markOf_of_whiteout hw
  have hd := isDeleted_isSome_iff h.records (path c.entry)
  unfold squashEntry
  simp only [hw]
  cases w with
  | some w =>
    have hdrop : DroppedBy path base s.cb c := Or.inl (by simp [hm])
    by_cases hc : c.layer = 0
    · refine ⟨s, ?_, by simp [sift, hdrop], by simpa [hc] using h⟩
      cases w <;> simp [hc]
    · refine ⟨_, ?_, ?_, by simpa [hc, hm] using knows_push path h w⟩
      · cases w <;> simp [hc]
      · simp [sift, hdrop]
  | none =>
    have hm0 : markOf (path c.entry) = none := hm
    cases hdel : s.deletions.isDeleted (path c.entry) with
    | some r =>
      have hdrop : DroppedBy path base s.cb c := Or.inr (hd.mp (by simp [hdel]))
      refine ⟨_, rfl, by simp [sift, hdrop], ?_⟩
      simpa [hm0] using (⟨h.records, h.queues⟩ : Knows path base
        { s with stats := s.stats.count r } queued)
    | none =>
      have hkeep : ¬ DroppedBy path base s.cb c := by
        rintro (hh | hh)
        · simp [hm0] at hh
        · have := hd.mpr hh
          simp [hdel] at this
      refine ⟨_, rfl, by simp [sift, hkeep], ?_⟩
      simpa [hm0] using knows_seen path h c

theorem squashLayer_entries {base queued : List Fact} {s : Squasher (List (Call ε))}
    (h : Knows path base s queued) (i : ℕ) (cs : List (Call ε)) (hi : ∀ c ∈ cs, c.layer = i) :
    ∃ s', squashLayer (fun c : Call ε => path c.entry) recorder i (cs.map .ok) s =
        .ok () (if i ≠ 0 then { s' with deletions := s'.deletions.endOfLayer } else s') ∧
      s'.cb = sift (DroppedBy path base) s.cb cs ∧
      Knows path base s' (queued ++ if i ≠ 0 then marks path (cs.map Call.entry) else []) := by
  induction cs generalizing s queued with
  | nil => exact ⟨s, rfl, rfl, by simpa [marks] using h⟩
  | cons c cs ih =>
    have hc : c.layer = i := hi c (by simp)
    obtain ⟨s1, h1, hcb1, hk1⟩ := squashEntry_step path h c
    obtain ⟨s2, h2, hcb2, hk2⟩ := ih hk1 (fun c' h' => hi c' (by simp [h']))
    refine ⟨s2, ?_, ?_, ?_⟩
    · rw [List.map_cons, squashLayer]
      change EStateM.bind _ _ s = _
      simp only [EStateM.bind, ← hc, h1]
      rw [hc]
      exact h2
    · rw [hcb2, hcb1, ← sift_append]
      rfl
    · refine ⟨hk2.records, fun f => ?_⟩
      rw [hk2.queues f]
      by_cases h0 : i = 0
      · simp [hc, h0]
      · cases hm : markOf (path c.entry) <;> simp [hc, h0, marks, hm]

/-- The end of a layer turns its markers into facts for the layers below. -/
theorem squashLayer_run {base : List Fact} {s : Squasher (List (Call ε))}
    (h : Knows path base s []) (i : ℕ) (cs : List (Call ε)) (hi : ∀ c ∈ cs, c.layer = i) :
    ∃ s', squashLayer (fun c : Call ε => path c.entry) recorder i (cs.map .ok) s = .ok () s' ∧
      s'.cb = sift (DroppedBy path base) s.cb cs ∧
      (i ≠ 0 → Knows path (marks path (cs.map Call.entry) ++ base) s' []) := by
  obtain ⟨s', hs', hcb, hk⟩ := squashLayer_entries path h i cs hi
  refine ⟨_, hs', ?_, ?_⟩
  · split_ifs <;> exact hcb
  · intro h0
    rw [if_pos h0]
    obtain ⟨hr, hwq, hoq⟩ := records_endOfLayer hk.records
    refine ⟨?_, ?_⟩
    · refine records_congr hr ?_
      intro f
      have hq := hk.queues f
      simp only [h0, ne_eq, not_false_eq_true, if_true, List.nil_append, List.mem_append] at hq ⊢
      tauto
    · intro f
      simp [hwq, hoq]

theorem locate_concat (low : List (List ε)) (es : List ε) :
    locate (low ++ [es]) = locate low ++ [es.mapIdx fun k e => ⟨low.length, k, e⟩] := by
  simp [locate, List.mapIdx_append]

theorem order_concat (low : List (List ε)) (es : List ε) :
    order (low ++ [es]) = (es.mapIdx fun k e => ⟨low.length, k, e⟩) ++ order low := by
  simp [order, locate_concat]

theorem mapIdx_call_entries (i : ℕ) (es : List ε) :
    (es.mapIdx fun k e => (⟨i, k, e⟩ : Call ε)).map Call.entry = es := by
  apply List.ext_getElem <;> simp

theorem mem_mapIdx_call {i : ℕ} {es : List ε} {c : Call ε}
    (h : c ∈ es.mapIdx fun k e => (⟨i, k, e⟩ : Call ε)) : c.layer = i := by
  obtain ⟨k, hk, rfl⟩ := List.mem_mapIdx.mp h
  rfl

theorem mem_order_layer {layers : List (List ε)} {c : Call ε} (h : c ∈ order layers) :
    c.layer < layers.length := by
  induction layers using List.reverseRecOn with
  | nil => simp [order, locate] at h
  | append_singleton low es ih =>
    rw [order_concat] at h
    rcases List.mem_append.mp h with h | h
    · simp [mem_mapIdx_call h]
    · have := ih h
      simp
      omega

theorem squashLayers_run (low top : List (List ε)) {s : Squasher (List (Call ε))}
    (h : Knows path (marks path top.flatten) s []) :
    ∃ s', squashLayers (fun c : Call ε => path c.entry) recorder
        ((locate low).map (·.map .ok)).zipIdx.reverse s = .ok () s' ∧
      s'.cb = sift (Dropped path (low ++ top)) s.cb (order low) := by
  induction low using List.reverseRecOn generalizing top s with
  | nil => exact ⟨s, rfl, rfl⟩
  | append_singleton low es ih =>
    have hlayer : ∀ c ∈ es.mapIdx (fun k e => (⟨low.length, k, e⟩ : Call ε)),
        c.layer = low.length := fun c hc => mem_mapIdx_call hc
    obtain ⟨s1, h1, hcb1, hk1⟩ := squashLayer_run path h low.length _ hlayer
    have hbase : marksAbove path (low ++ [es] ++ top) low.length = marks path top.flatten := by
      simp [marksAbove]
    have hsift : s1.cb = sift (Dropped path (low ++ [es] ++ top)) s.cb
        (es.mapIdx fun k e => ⟨low.length, k, e⟩) := by
      rw [hcb1]
      refine sift_congr _ _ _ _ ?_
      intro c hc acc
      rw [Dropped, hlayer c hc, hbase]
    have hstep : ((locate (low ++ [es])).map (·.map Except.ok)).zipIdx.reverse =
        ((es.mapIdx fun k e => (⟨low.length, k, e⟩ : Call ε)).map Except.ok, low.length) ::
          (((locate low).map (·.map (Except.ok (ε := Error)))).zipIdx.reverse) := by
      simp [List.zipIdx_append, locate]
    rw [hstep, order_concat, sift_append, ← hsift]
    simp only [squashLayers]
    change ∃ s', EStateM.bind _ _ s = _ ∧ _
    simp only [EStateM.bind, h1]
    cases low with
    | nil => exact ⟨s1, rfl, rfl⟩
    | cons l ls =>
      have hk := hk1 (by simp)
      rw [mapIdx_call_entries] at hk
      have hk' : Knows path (marks path (es :: top).flatten) s1 [] := by
        simpa [marks] using hk
      simpa using ih (es :: top) hk'

def Before (a b : Call ε) : Prop := b.layer < a.layer ∨ a.layer = b.layer ∧ a.pos < b.pos

theorem mapIdx_call_before (i : ℕ) (es : List ε) :
    (es.mapIdx fun k e => (⟨i, k, e⟩ : Call ε)).Pairwise Before := by
  rw [List.pairwise_iff_getElem]
  intro a b ha hb hab
  simpa [Before] using hab

theorem order_before (layers : List (List ε)) : (order layers).Pairwise Before := by
  induction layers using List.reverseRecOn with
  | nil => simp [order, locate]
  | append_singleton low es ih =>
    rw [order_concat, List.pairwise_append]
    refine ⟨mapIdx_call_before low.length es, ih, ?_⟩
    intro a ha b hb
    refine Or.inl ?_
    rw [mem_mapIdx_call ha]
    exact mem_order_layer hb

theorem order_nodup (layers : List (List ε)) : (order layers).Nodup := by
  refine (order_before layers).imp ?_
  rintro a b (h | ⟨-, h⟩) rfl
  · exact lt_irrefl _ h
  · exact lt_irrefl _ h

theorem mem_order_iff {layers : List (List ε)} {c : Call ε} :
    c ∈ order layers ↔ ∃ es, layers[c.layer]? = some es ∧ es[c.pos]? = some c.entry := by
  simp only [order, locate, List.mem_flatten, List.mem_reverse, List.mem_mapIdx]
  constructor
  · rintro ⟨cs, ⟨i, hi, rfl⟩, hc⟩
    obtain ⟨k, hk, rfl⟩ := List.mem_mapIdx.mp hc
    exact ⟨layers[i], by simp, by simp⟩
  · rintro ⟨es, hes, he⟩
    obtain ⟨hi, rfl⟩ := List.getElem?_eq_some_iff.mp hes
    obtain ⟨hk, hke⟩ := List.getElem?_eq_some_iff.mp he
    refine ⟨_, ⟨c.layer, hi, rfl⟩, List.mem_mapIdx.mpr ⟨c.pos, hk, ?_⟩⟩
    rw [hke]

theorem mem_marksAbove {layers : List (List ε)} {i : ℕ} {f : Fact} :
    f ∈ marksAbove path layers i ↔
      ∃ c ∈ order layers, i < c.layer ∧ markOf (path c.entry) = some f := by
  simp only [marksAbove, marks, List.mem_filterMap, List.mem_flatten]
  constructor
  · rintro ⟨e, ⟨es, hes, he⟩, hf⟩
    obtain ⟨j, hj, hje⟩ := List.mem_iff_getElem.mp hes
    obtain ⟨k, hk, hke⟩ := List.mem_iff_getElem.mp he
    refine ⟨⟨i + 1 + j, k, e⟩, mem_order_iff.mpr ⟨es, ?_, ?_⟩, by simp; omega, hf⟩
    · have hlt : i + 1 + j < layers.length := by
        have := hj
        rw [List.length_drop] at this
        omega
      simp [← hje, hlt]
    · simp [← hke]
  · rintro ⟨c, hc, hi, hf⟩
    obtain ⟨es, hes, he⟩ := mem_order_iff.mp hc
    refine ⟨c.entry, ⟨es, ?_, List.mem_of_getElem? he⟩, hf⟩
    refine List.mem_of_getElem? (i := c.layer - (i + 1)) ?_
    rw [List.getElem?_drop]
    simpa [show i + 1 + (c.layer - (i + 1)) = c.layer by omega] using hes

theorem mem_seen {acc : List (Call ε)} {f : Fact} :
    f ∈ seen path acc ↔ ∃ c ∈ acc, c.layer ≠ 0 ∧ f = (path c.entry, .shadowed) := by
  simp only [seen, List.mem_map, List.mem_filter, decide_eq_true_eq]
  constructor
  · rintro ⟨c, ⟨hc, h0⟩, rfl⟩
    exact ⟨c, hc, h0, rfl⟩
  · rintro ⟨c, hc, h0, rfl⟩
    exact ⟨c, ⟨hc, h0⟩, rfl⟩

theorem calls_eq (layers : List (List ε)) :
    calls path layers = sift (Dropped path layers) [] (order layers) := by
  have h0 : Knows path (marks path ([] : List (List ε)).flatten)
      ⟨Stats.default, DeletionsOsString.default, []⟩ [] :=
    ⟨by simpa [marks, seen] using records_default, by simp [DeletionsOsString.default]⟩
  obtain ⟨s', hs', hcb⟩ := squashLayers_run path layers [] h0
  unfold calls squashCb
  rw [hs']
  simpa [finalState] using hcb

end Run

end ProgramExplorer.SquashHistory
