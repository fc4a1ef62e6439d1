import ProgramExplorer.SquashMachine
import ProgramExplorer.SquashPathBuf

/-!
# How far a whiteout reaches

`whiteout` of `peimage/src/squash.rs` replaces the name of an entry by what
follows `.wh.` in it, and `push_whiteout` takes a slash off the end. The rest
of the name can be empty, `.` or `..`. A key in the map also cuts off what
another key says about the paths after it, which need not be paths below it.
-/

set_option autoImplicit false

namespace ProgramExplorer.SquashWhiteouts
open ByteStrings OrderedMap UnixPath SquashDeletions SquashMachine SquashPathBuf

/-- Whether the whiteout is pushed makes a difference to its key and to what is
below it only, in every history of calls. -/
def AffectsBelow (hidden : Bytes) : Prop :=
  ∀ front back q,
    osString.isDeleted (osString.after (front ++ .pushWhiteout hidden :: back)) q ≠
      osString.isDeleted (osString.after (front ++ back)) q →
    components (withoutTrailingSlash hidden) <+: components q

structure StaysInside (p hidden : Bytes) : Prop where
  child : ∃ name, components (withoutTrailingSlash hidden) =
    components ((parent p).getD []) ++ [.normal name]
  reach : AffectsBelow hidden

section Names

variable {p hidden d n x : Bytes}

theorem whiteout_eq_whiteout (h : whiteout p = .ok (some (.whiteout hidden))) :
    ∃ n, slash ∉ n ∧ hidden = push ((parent p).getD []) n := by
  unfold whiteout at h
  split at h
  · cases h
  · rename_i name hname
    have hmem : .normal name ∈ components p := by
      unfold fileName at hname
      split at hname
      · rename_i hlast
        cases hname
        exact List.mem_of_getLast? hlast
      · cases hname
    split_ifs at h
    · split at h <;> cases h
    · cases h
      refine ⟨name.drop whPrefix.length, fun hs => normal_noSlash hmem (List.mem_of_mem_drop hs), ?_⟩
      rw [withFileName, hname]
      rfl
    · cases h

theorem withoutTrailingSlash_append (hn : slash ∉ n) (hne : n ≠ []) (x : Bytes) :
    withoutTrailingSlash (x ++ n) = x ++ n := by
  refine if_neg fun hlast => hn ?_
  rw [List.getLast?_append_of_ne_nil _ hne] at hlast
  exact List.mem_of_getLast? hlast

theorem withoutTrailingSlash_slash (a : Bytes) : withoutTrailingSlash (a ++ [slash]) = a := by
  rw [withoutTrailingSlash, if_pos (by simp), List.dropLast_concat]

theorem plainName_of_child {name : Bytes} (hn : slash ∉ n)
    (h : components (withoutTrailingSlash (push d n)) = components d ++ [.normal name]) : PlainName n := by
  by_cases hd : d = []
  · subst hd
    rw [push_nil hn] at h
    have hkeep : withoutTrailingSlash n = n := if_neg fun hlast => hn (List.mem_of_getLast? hlast)
    rw [hkeep] at h
    exact plainName_of_components hn h
  obtain ⟨x, hpush, hx⟩ := push_cases hn hd
  rw [hpush, hx] at h
  by_cases hne : n = []
  · -- the key is the directory itself
    subst hne
    rw [withoutTrailingSlash_slash] at h
    by_cases hnil : x = []
    · rw [hnil, components_nil] at h
      cases h
    · rw [lead, if_neg hnil] at h
      simp at h
  · rw [List.append_cons, withoutTrailingSlash_append hn hne, ← List.append_cons, components_name hn] at h
    have hparse := List.append_cancel_left h
    cases hp : parseSingleComponent n with
    | none => simp [hp] at hparse
    | some c =>
      rw [hp] at hparse
      cases hparse
      exact plainName_of_parse hn hp

end Names

section Lookup

variable {k q a : Bytes} {m m' : OrdMap Bytes DeletionState} {s : DeletionState} {r : DeletionReason}

def AtOrBelow (k q : Bytes) : Prop := k = q ∨ osStrStartsWith q k = true

theorem atOrBelow_of_reason (h : reasonFor q k s = some r) : AtOrBelow k q := by
  cases s with
  | whiteout =>
    simp only [reasonFor] at h
    split_ifs at h with heq hstart
    · exact .inl heq
    · exact .inr hstart
  | opaqueDir =>
    simp only [reasonFor] at h
    split_ifs at h with hboth
    exact .inr hboth.2
  | shadowed =>
    simp only [reasonFor] at h
    split_ifs at h with heq
    exact .inl heq

/-- A key whose bytes are all after the slash does not stand between a path and one below it. -/
theorem append_slash_lt (hk : ∀ b ∈ k, slash < b) (h : a < k) (r : Bytes) : a ++ slash :: r < k := by
  induction a generalizing k with
  | nil =>
    cases k with
    | nil => exact absurd h (lt_irrefl _)
    | cons c k => exact List.cons_lt_cons_iff.mpr (.inl (hk c List.mem_cons_self))
  | cons x a ih =>
    cases k with
    | nil => exact absurd h (List.not_lt_nil _)
    | cons c k =>
      refine List.cons_lt_cons_iff.mpr ?_
      rcases List.cons_lt_cons_iff.mp h with hlt | ⟨heq, hlt⟩
      · exact .inl hlt
      · exact .inr ⟨heq, ih (fun b hb => hk b (List.mem_cons_of_mem _ hb)) hlt⟩

def answerIn (m : OrdMap Bytes DeletionState) (q : Bytes) : Option DeletionReason :=
  match m.lastLE q with
  | none => none
  | some (key, state) => reasonFor q key state

theorem answerIn_eq_some : answerIn m q = some r ↔
    ∃ a s, m.lastLE q = some (a, s) ∧ reasonFor q a s = some r := by
  unfold answerIn
  cases m.lastLE q with
  | none => simp
  | some e =>
    obtain ⟨key, state⟩ := e
    simp

/-- An answer stays if the map is changed at a key that is not in the way. -/
theorem answerIn_of_agree (hk : ∀ b ∈ k, slash < b) (hq : ¬ AtOrBelow k q)
    (hagree : ∀ k', k' ≠ k → m.get? k' = m'.get? k') (h : answerIn m q = some r) :
    answerIn m' q = some r := by
  obtain ⟨a, s, hl, hreason⟩ := answerIn_eq_some.mp h
  obtain ⟨hget, hle, hmax⟩ := m.lastLE_eq_some q a s hl
  have habove := atOrBelow_of_reason hreason
  have hak : a ≠ k := by
    rintro rfl
    exact hq habove
  have hget' : m'.get? a = some s := (hagree a hak).symm.trans hget
  cases hl' : m'.lastLE q with
  | none => exact absurd hle (m'.lastLE_eq_none q hl' a (by simp [hget']))
  | some e =>
    obtain ⟨a', s'⟩ := e
    obtain ⟨hget'', hle', hmax'⟩ := m'.lastLE_eq_some q a' s' hl'
    have haa : a ≤ a' := hmax' a (by simp [hget']) hle
    by_cases heq : a' = a
    · subst heq
      rw [hget'] at hget''
      cases hget''
      exact answerIn_eq_some.mpr ⟨a', s, hl', hreason⟩
    -- a later key is the one that was changed, and it would stand between
    have hlt : a < a' := lt_of_le_of_ne haa (Ne.symm heq)
    have hka : a' = k := by
      by_contra hne
      exact absurd (hmax a' (by simp [hagree a' hne, hget'']) hle') (not_le.mpr hlt)
    subst hka
    rcases habove with rfl | hstart
    · exact absurd hle' (not_le.mpr hlt)
    · obtain ⟨r', rfl⟩ := (osStrStartsWith_iff q a).mp hstart
      exact absurd (append_slash_lt hk hlt r') (not_lt.mpr hle')

end Lookup

section Histories

variable {k hidden q : Bytes} {d d' : DeletionsOsString}

structure SameOff (k : Bytes) (d d' : DeletionsOsString) : Prop where
  facts : ∃ fs fs', Records d fs ∧ Records d' fs' ∧ ∀ f : Fact, f.1 ≠ k → (f ∈ fs ↔ f ∈ fs')
  whiteoutQ : ∀ x, x ≠ k → (x ∈ d.whiteoutQ ↔ x ∈ d'.whiteoutQ)
  opaqueQ : ∀ x, x ≠ k → (x ∈ d.opaqueQ ↔ x ∈ d'.opaqueQ)

theorem sameOff_default (k : Bytes) : SameOff k .default .default :=
  ⟨⟨[], [], records_default, records_default, fun _ _ => Iff.rfl⟩, fun _ _ => Iff.rfl, fun _ _ => Iff.rfl⟩

theorem mem_queue_iff {state : DeletionState} {queue queue' : List Bytes}
    (h : ∀ x, x ≠ k → (x ∈ queue ↔ x ∈ queue')) {f : Fact} (hf : f.1 ≠ k) :
    f ∈ queue.map (fun x => (x, state)) ↔ f ∈ queue'.map (fun x => (x, state)) := by
  simp only [List.mem_map]
  constructor
  · rintro ⟨x, hx, rfl⟩
    exact ⟨x, (h x hf).mp hx, rfl⟩
  · rintro ⟨x, hx, rfl⟩
    exact ⟨x, (h x hf).mpr hx, rfl⟩

theorem sameOff_endOfLayer (h : SameOff k d d') : SameOff k d.endOfLayer d'.endOfLayer := by
  obtain ⟨fs, fs', hfs, hfs', hsame⟩ := h.facts
  obtain ⟨hrec, hw, ho⟩ := records_endOfLayer hfs
  obtain ⟨hrec', hw', ho'⟩ := records_endOfLayer hfs'
  refine ⟨⟨_, _, hrec, hrec', fun f hf => ?_⟩, ?_, ?_⟩
  · rw [List.mem_append, List.mem_append, List.mem_append, List.mem_append, hsame f hf,
      mem_queue_iff h.whiteoutQ hf, mem_queue_iff h.opaqueQ hf]
  · rw [hw, hw']
    exact fun _ _ => Iff.rfl
  · rw [ho, ho']
    exact fun _ _ => Iff.rfl

theorem sameOff_step (h : SameOff k d d') (call : DeletionCall) :
    SameOff k (osString.step d call) (osString.step d' call) := by
  cases call with
  | pushWhiteout p =>
    refine ⟨h.facts, fun x hx => ?_, h.opaqueQ⟩
    change x ∈ d.whiteoutQ ++ [_] ↔ x ∈ d'.whiteoutQ ++ [_]
    rw [List.mem_append, List.mem_append, h.whiteoutQ x hx]
  | pushOpaque p =>
    refine ⟨h.facts, h.whiteoutQ, fun x hx => ?_⟩
    change x ∈ d.opaqueQ ++ [_] ↔ x ∈ d'.opaqueQ ++ [_]
    rw [List.mem_append, List.mem_append, h.opaqueQ x hx]
  | insertSeen p =>
    obtain ⟨fs, fs', hfs, hfs', hsame⟩ := h.facts
    refine ⟨⟨_, _, records_insert hfs p .shadowed, records_insert hfs' p .shadowed, fun f hf => ?_⟩,
      h.whiteoutQ, h.opaqueQ⟩
    rw [List.mem_cons, List.mem_cons, hsame f hf]
  | endOfLayer => exact sameOff_endOfLayer h
  | isDeleted p => exact h

theorem sameOff_foldl (h : SameOff k d d') (calls : List DeletionCall) :
    SameOff k (calls.foldl osString.step d) (calls.foldl osString.step d') := by
  induction calls generalizing d d' with
  | nil => exact h
  | cons call calls ih => exact ih (sameOff_step h call)

theorem sameOff_push (front back : List DeletionCall) (hidden : Bytes) :
    SameOff (withoutTrailingSlash hidden) (osString.after (front ++ .pushWhiteout hidden :: back))
      (osString.after (front ++ back)) := by
  have hfront : SameOff (withoutTrailingSlash hidden) (osString.after front) (osString.after front) :=
    sameOff_foldl (sameOff_default _) front
  have hpush : SameOff (withoutTrailingSlash hidden) ((osString.after front).pushWhiteout hidden)
      (osString.after front) := by
    refine ⟨hfront.facts, fun x hx => ?_, hfront.opaqueQ⟩
    change x ∈ (osString.after front).whiteoutQ ++ [_] ↔ x ∈ (osString.after front).whiteoutQ
    rw [List.mem_append, List.mem_singleton, or_iff_left hx]
  rw [Deletions.after, Deletions.after, List.foldl_append, List.foldl_append]
  exact sameOff_foldl hpush back

theorem get?_of_sameOff (h : SameOff k d d') {k' : Bytes} (hk : k' ≠ k) : d.map.get? k' = d'.map.get? k' := by
  obtain ⟨fs, fs', hfs, hfs', hsame⟩ := h.facts
  rw [hfs k', hfs' k']
  simp only [stateOf, hsame (k', _) hk]

/-- A key of bytes after the slash reaches what is at or below it and nothing else. -/
theorem atOrBelow_of_difference (hk : ∀ b ∈ withoutTrailingSlash hidden, slash < b)
    {front back : List DeletionCall}
    (h : osString.isDeleted (osString.after (front ++ .pushWhiteout hidden :: back)) q ≠
      osString.isDeleted (osString.after (front ++ back)) q) :
    AtOrBelow (withoutTrailingSlash hidden) (withoutTrailingSlash q) := by
  by_contra hq
  have hsame := sameOff_push front back hidden
  refine h (Option.ext fun r => ⟨fun hr => ?_, fun hr => ?_⟩)
  · exact answerIn_of_agree hk hq (fun k' hk' => get?_of_sameOff hsame hk') hr
  · exact answerIn_of_agree hk hq (fun k' hk' => (get?_of_sameOff hsame hk').symm) hr

theorem records_two (a hidden : Bytes) :
    Records (osString.after ([.pushWhiteout (a ++ [slash])] ++ .pushWhiteout hidden :: [.endOfLayer]))
      [(a, .whiteout), (withoutTrailingSlash hidden, .whiteout)] := by
  have h : Records ((DeletionsOsString.default.pushWhiteout (a ++ [slash])).pushWhiteout hidden) [] :=
    records_default
  refine records_congr (records_endOfLayer h).1 fun f => ?_
  simp [DeletionsOsString.pushWhiteout, DeletionsOsString.default, withoutTrailingSlash_slash]

theorem records_one (a : Bytes) :
    Records (osString.after ([.pushWhiteout (a ++ [slash])] ++ [.endOfLayer])) [(a, .whiteout)] := by
  have h : Records (DeletionsOsString.default.pushWhiteout (a ++ [slash])) [] := records_default
  refine records_congr (records_endOfLayer h).1 fun f => ?_
  simp [DeletionsOsString.pushWhiteout, DeletionsOsString.default, withoutTrailingSlash_slash]

/-- A key between a whited out path and a path below it brings that path back. -/
theorem difference_of_between {a : Bytes} (hak : a < withoutTrailingSlash hidden)
    (hkq : withoutTrailingSlash hidden ≤ withoutTrailingSlash q)
    (haq : osStrStartsWith (withoutTrailingSlash q) a = true)
    (hnot : ¬ AtOrBelow (withoutTrailingSlash hidden) (withoutTrailingSlash q)) :
    osString.isDeleted (osString.after ([.pushWhiteout (a ++ [slash])] ++ .pushWhiteout hidden :: [.endOfLayer])) q ≠
      osString.isDeleted (osString.after ([.pushWhiteout (a ++ [slash])] ++ [.endOfLayer])) q := by
  have hone : Hides [(a, .whiteout)] (withoutTrailingSlash q) :=
    ⟨_, List.mem_singleton.mpr rfl, (startsWith_lt haq).le, by simp, .inr haq⟩
  have htwo : ¬ Hides [(a, .whiteout), (withoutTrailingSlash hidden, .whiteout)] (withoutTrailingSlash q) := by
    rintro ⟨f, hf, -, hmax, hcovers⟩
    have hle := hmax (withoutTrailingSlash hidden, .whiteout) (by simp) hkq
    rw [List.mem_cons, List.mem_singleton] at hf
    rcases hf with rfl | rfl
    · exact absurd hak (not_lt.mpr hle)
    · exact hnot hcovers
  rw [← isDeleted_isSome_iff (records_one a)] at hone
  rw [← isDeleted_isSome_iff (records_two a hidden)] at htwo
  intro heq
  change DeletionsOsString.isDeleted _ q = DeletionsOsString.isDeleted _ q at heq
  rw [heq] at htwo
  exact htwo hone

end Histories

section Reach

variable {p hidden d n k q : Bytes}

theorem prefix_of_atOrBelow (hk : k ≠ []) (h : AtOrBelow k (withoutTrailingSlash q)) :
    components k <+: components q := by
  have hbelow : ∀ r, components k <+: components (k ++ slash :: r) := by
    intro r
    rw [components_append_slash, lead, if_neg hk]
    exact List.prefix_append _ _
  rcases h with heq | hstart
  · rcases withoutTrailingSlash_cases q with hq | hq
    · rw [heq, hq]
    · rw [hq, ← heq]
      exact hbelow []
  · obtain ⟨r, hr⟩ := (osStrStartsWith_iff _ _).mp hstart
    rcases withoutTrailingSlash_cases q with hq | hq
    · rw [← hq, hr]
      exact hbelow r
    · rw [hq, hr, List.append_assoc, List.cons_append]
      exact hbelow _

theorem plainName_of_high (hne : n ≠ []) (h : ∀ b ∈ n, slash < b) : PlainName n where
  nonempty := hne
  noSlash := fun hs => absurd (h slash hs) (lt_irrefl _)
  notDot := by
    rintro rfl
    exact absurd (h dot (by simp)) (by decide)
  notDotDot := by
    rintro rfl
    exact absurd (h dot (by simp)) (by decide)

theorem plainName_concat (h : PlainName n) : PlainName (n ++ [0x61]) where
  nonempty := by simp
  noSlash := by
    rw [List.mem_append, not_or]
    exact ⟨h.noSlash, by decide⟩
  notDot := by
    intro heq
    have hlast := congrArg List.getLast? heq
    simp [dot] at hlast
  notDotDot := by
    intro heq
    have hlast := congrArg List.getLast? heq
    simp [dot] at hlast

/-- A whiteout in a directory brings back a path after it, if the directory is whited out. -/
theorem not_affectsBelow_of_slash {x : Bytes} (hn : PlainName n) : ¬ AffectsBelow (x ++ slash :: n) := by
  intro hreach
  have hkey : withoutTrailingSlash (x ++ slash :: n) = x ++ slash :: n := by
    rw [List.append_cons, withoutTrailingSlash_append hn.noSlash hn.nonempty]
  have hq : withoutTrailingSlash (x ++ slash :: (n ++ [0x61])) = x ++ slash :: (n ++ [0x61]) := by
    have hn' := plainName_concat hn
    rw [List.append_cons, withoutTrailingSlash_append hn'.noSlash hn'.nonempty]
  have hsplit : x ++ slash :: (n ++ [0x61]) = (x ++ slash :: n) ++ [0x61] := by simp
  have hpre := hreach _ _ (x ++ slash :: (n ++ [0x61])) (difference_of_between (a := x) ?_ ?_ ?_ ?_)
  · rw [hkey, components_name hn.noSlash, components_name (plainName_concat hn).noSlash,
      List.prefix_append_right_inj, parse_plain hn, parse_plain (plainName_concat hn)] at hpre
    simp at hpre
  · rw [hkey]
    exact lt_append_cons x slash n
  · rw [hkey, hq, hsplit]
    exact (lt_append_cons _ 0x61 []).le
  · rw [hq]
    exact (osStrStartsWith_iff _ _).mpr ⟨_, rfl⟩
  · rw [hkey, hq, hsplit]
    rintro (heq | hstart)
    · simp at heq
    · obtain ⟨r, hr⟩ := (osStrStartsWith_iff _ _).mp hstart
      have hcons := List.append_cancel_left hr
      exact absurd (List.cons.inj hcons).1 (by decide)

theorem append_cons_lt {b c : UInt8} (h : b < c) (a r s : Bytes) : a ++ b :: r < a ++ c :: s := by
  induction a with
  | nil => exact List.cons_lt_cons_iff.mpr (.inl h)
  | cons x a ih => exact List.cons_lt_cons_iff.mpr (.inr ⟨rfl, ih⟩)

theorem lead_noSlash {a : Bytes} (h : slash ∉ a) : ∃ c, lead a = [c] ∧ ∀ n, c = .normal n → n = a := by
  by_cases hnil : a = []
  · exact ⟨.rootDir, if_pos hnil, fun n hn => by cases hn⟩
  · have hplain : Plain a := by
      constructor <;> rw [parts_noSlash h] <;> simp [hnil]
    refine ⟨toComponent a, ?_, fun n hn => ?_⟩
    · rw [lead, if_neg hnil, components_plain hplain, parts_noSlash h]
      rfl
    · unfold toComponent at hn
      split_ifs at hn
      cases hn
      rfl

/-- A name with a byte before the slash brings back a path below the name that ends there. -/
theorem not_affectsBelow_of_low {a r : Bytes} {b : UInt8} (hn : PlainName (a ++ b :: r)) (hb : b < slash) :
    ¬ AffectsBelow (a ++ b :: r) := by
  intro hreach
  have hkey : withoutTrailingSlash (a ++ b :: r) = a ++ b :: r := by
    have hkeep := withoutTrailingSlash_append hn.noSlash hn.nonempty []
    rwa [List.nil_append] at hkeep
  have hq : withoutTrailingSlash (a ++ slash :: [0x61]) = a ++ slash :: [0x61] := by
    rw [List.append_cons, withoutTrailingSlash_append (by decide) (by simp)]
  have ha : slash ∉ a := fun hs => hn.noSlash (List.mem_append_left _ hs)
  have hpre := hreach _ _ (a ++ slash :: [0x61]) (difference_of_between (a := a) ?_ ?_ ?_ ?_)
  · obtain ⟨c, hlead, hc⟩ := lead_noSlash ha
    rw [hkey, components_of_plain hn, components_append_slash, hlead] at hpre
    have hhead := (List.cons_prefix_cons.mp hpre).1
    have hlen := congrArg List.length (hc _ hhead.symm)
    simp at hlen
  · rw [hkey]
    exact lt_append_cons a b r
  · rw [hkey, hq]
    exact (append_cons_lt hb a r [0x61]).le
  · rw [hq]
    exact (osStrStartsWith_iff _ _).mpr ⟨_, rfl⟩
  · rw [hkey, hq]
    rintro (heq | hstart)
    · exact absurd (List.cons.inj (List.append_cancel_left heq)).1 hb.ne
    · obtain ⟨r', hr⟩ := (osStrStartsWith_iff _ _).mp hstart
      rw [List.append_assoc] at hr
      exact absurd (List.cons.inj (List.append_cancel_left hr)).1.symm hb.ne

/-- A whiteout stays inside exactly if the hidden path is one name and every
byte of it comes after the slash. -/
theorem staysInside_iff (h : whiteout p = .ok (some (.whiteout hidden))) :
    StaysInside p hidden ↔ hidden ≠ [] ∧ ∀ b ∈ hidden, slash < b := by
  obtain ⟨n, hn, rfl⟩ := whiteout_eq_whiteout h
  constructor
  · rintro ⟨⟨name, hchild⟩, hreach⟩
    have hplain := plainName_of_child hn hchild
    by_cases hd : (parent p).getD [] = []
    · rw [hd, push_nil hn] at hreach ⊢
      refine ⟨hplain.nonempty, fun b hb => ?_⟩
      by_contra hlow
      have hne : b ≠ slash := fun heq => hn (heq ▸ hb)
      obtain ⟨a, r, rfl⟩ := List.append_of_mem hb
      exact not_affectsBelow_of_low hplain (lt_of_le_of_ne (not_lt.mp hlow) hne) hreach
    · obtain ⟨x, hpush, -⟩ := push_cases hn hd
      rw [hpush] at hreach
      exact absurd hreach (not_affectsBelow_of_slash hplain)
  · rintro ⟨hne, hhigh⟩
    have hd : (parent p).getD [] = [] := by
      by_contra hd
      obtain ⟨x, hpush, -⟩ := push_cases hn hd
      exact absurd (hhigh slash (by simp [hpush])) (lt_irrefl _)
    rw [hd, push_nil hn] at hne hhigh
    have hplain := plainName_of_high hne hhigh
    have hkey : withoutTrailingSlash n = n := if_neg fun hlast => hn (List.mem_of_getLast? hlast)
    refine ⟨⟨n, ?_⟩, fun front back q hdiff => ?_⟩
    · rw [hd, push_nil hn, hkey, components_of_plain hplain, components_nil, List.nil_append]
    · rw [hd, push_nil hn] at hdiff ⊢
      have hat := atOrBelow_of_difference (by rwa [hkey]) hdiff
      rw [hkey] at hat ⊢
      exact prefix_of_atOrBelow hne hat

theorem top_level_whiteout_stays :
    StaysInside (whPrefix ++ [0x66, 0x6f, 0x6f]) [0x66, 0x6f, 0x6f] := by
  have h : whiteout (whPrefix ++ [0x66, 0x6f, 0x6f]) = .ok (some (.whiteout [0x66, 0x6f, 0x6f])) := by decide
  exact (staysInside_iff h).mpr ⟨by decide, by simp [slash]⟩

def bare : Bytes := [0x64, slash] ++ whPrefix

def nested : Bytes := [0x64, slash] ++ whPrefix ++ [0x78]

theorem nested_brings_back :
    osString.isDeleted (osString.after ([.pushWhiteout [0x64]] ++ .pushWhiteout [0x64, slash, 0x78] :: [.endOfLayer]))
        [0x64, slash, 0x79] = none ∧
      osString.isDeleted (osString.after ([.pushWhiteout [0x64]] ++ [.endOfLayer])) [0x64, slash, 0x79] =
        some .whiteoutDir := by
  decide +kernel

theorem whiteout_reaches_outside :
    (whiteout bare = .ok (some (.whiteout [0x64, slash])) ∧ ¬ StaysInside bare [0x64, slash]) ∧
      whiteout nested = .ok (some (.whiteout [0x64, slash, 0x78])) ∧
      ¬ StaysInside nested [0x64, slash, 0x78] := by
  refine ⟨⟨by decide, ?_⟩, by decide, ?_⟩
  · rintro ⟨⟨name, hchild⟩, -⟩
    have hkey : components (withoutTrailingSlash [0x64, slash]) = [.normal [0x64]] := by decide
    have hdir : components ((parent bare).getD []) = [.normal [0x64]] := by decide
    rw [hkey, hdir] at hchild
    cases hchild
  · rintro ⟨-, hreach⟩
    obtain ⟨hnone, hsome⟩ := nested_brings_back
    have hpre := hreach [.pushWhiteout [0x64]] [.endOfLayer] [0x64, slash, 0x79] (by rw [hnone, hsome]; simp)
    exact absurd hpre (by decide)

end Reach

end ProgramExplorer.SquashWhiteouts
