import Mathlib.Data.List.DropRight
import ProgramExplorer.ByteStrings

/-!
# Unix paths as byte strings

Rust's `std::path` on Unix. A path is split at its separators; empty and `.`
segments carry no component, except a leading `.` which is the current
directory. `parent` and `withFileName` return byte strings, since callers
compare and order the bytes and not the components.
-/

set_option autoImplicit false

namespace ProgramExplorer.UnixPath
open ByteStrings

def slash : UInt8 := 0x2f

def dot : UInt8 := 0x2e

inductive Component where
  | rootDir
  | curDir
  | parentDir
  | normal (name : Bytes)
  deriving DecidableEq, Repr

def hasRoot : Bytes → Bool
  | c :: _ => c == slash
  | [] => false

def includeCurDir : Bytes → Bool
  | [c] => c == dot
  | c :: d :: _ => c == dot && d == slash
  | [] => false

def lenBeforeBody (p : Bytes) : ℕ :=
  (if hasRoot p then 1 else 0) + (if includeCurDir p then 1 else 0)

def segments (p : Bytes) : List Bytes := (p.drop (lenBeforeBody p)).splitOn slash

def parseSingleComponent (s : Bytes) : Option Component :=
  if s = [] ∨ s = [dot] then none
  else if s = [dot, dot] then some .parentDir
  else some (.normal s)

def components (p : Bytes) : List Component :=
  (if hasRoot p then [.rootDir] else if includeCurDir p then [.curDir] else []) ++
    (segments p).filterMap parseSingleComponent

def fileName (p : Bytes) : Option Bytes :=
  match (components p).getLast? with
  | some (.normal name) => some name
  | _ => none

def trimRight (ss : List Bytes) : List Bytes :=
  ss.rdropWhile (fun s => (parseSingleComponent s).isNone)

def parent (p : Bytes) : Option Bytes :=
  match (components p).getLast? with
  | none | some .rootDir => none
  | some .curDir => some []
  | some .parentDir | some (.normal _) =>
    some (p.take (lenBeforeBody p) ++
      [slash].intercalate (trimRight (trimRight (segments p)).dropLast))

def push (buf path : Bytes) : Bytes :=
  if hasRoot path then path
  else if buf ≠ [] ∧ buf.getLast? ≠ some slash then buf ++ slash :: path
  else buf ++ path

def withFileName (p name : Bytes) : Bytes :=
  push (if (fileName p).isSome then (parent p).getD [] else p) name

def pop (p : Bytes) : Bytes :=
  match parent p with
  | some q => p.take q.length
  | none => p

theorem normal_name {path name : Bytes} (h : .normal name ∈ components path) :
    name ≠ [dot] ∧ name ≠ [dot, dot] := by
  rw [components, List.mem_append] at h
  rcases h with h | h
  · split_ifs at h <;> simp at h
  · obtain ⟨s, -, hs⟩ := List.mem_filterMap.mp h
    unfold parseSingleComponent at hs
    split_ifs at hs with h1 h2
    · simp at hs
    · obtain rfl : s = name := by simpa using hs
      exact ⟨fun h => h1 (Or.inr h), h2⟩

def normalName : Component → Option Bytes
  | .normal name => some name
  | _ => none

def pathNames (p : Bytes) : List Bytes := (components p).filterMap normalName

theorem pathNames_not_dot {path name : Bytes} (h : name ∈ pathNames path) :
    name ≠ [dot] ∧ name ≠ [dot, dot] := by
  obtain ⟨c, hc, hn⟩ := List.mem_filterMap.mp h
  cases c with
  | normal n =>
    cases Option.some.inj hn
    exact normal_name hc
  | rootDir => cases hn
  | curDir => cases hn
  | parentDir => cases hn

section Joined

structure PlainName (name : Bytes) : Prop where
  nonempty : name ≠ []
  noSlash : slash ∉ name
  notDot : name ≠ [dot]
  notDotDot : name ≠ [dot, dot]

/-- A name that is one component wherever it stands, `..` among them. -/
structure SegmentName (name : Bytes) : Prop where
  nonempty : name ≠ []
  noSlash : slash ∉ name
  notDot : name ≠ [dot]

theorem PlainName.segment {name : Bytes} (h : PlainName name) : SegmentName name :=
  ⟨h.nonempty, h.noSlash, h.notDot⟩

def joined (names : List Bytes) : Bytes := [slash].intercalate names

def segmentComponent (name : Bytes) : Component :=
  if name = [dot, dot] then .parentDir else .normal name

theorem parse_segment {name : Bytes} (h : SegmentName name) :
    parseSingleComponent name = some (segmentComponent name) := by
  rw [parseSingleComponent, if_neg (by simp [h.nonempty, h.notDot]), segmentComponent]
  split_ifs <;> rfl

theorem segmentComponent_plain {name : Bytes} (h : PlainName name) :
    segmentComponent name = .normal name := if_neg h.notDotDot

variable {names : List Bytes} {name : Bytes}

theorem joined_cons (hne : names ≠ []) : joined (name :: names) = name ++ slash :: joined names := by
  obtain ⟨n, ns, rfl⟩ := List.exists_cons_of_ne_nil hne
  simp [joined]

theorem joined_concat (hne : names ≠ []) : joined (names ++ [name]) = joined names ++ slash :: name := by
  induction names with
  | nil => exact absurd rfl hne
  | cons n ns ih =>
    cases ns with
    | nil => simp [joined]
    | cons m ms =>
      rw [List.cons_append, joined_cons (by simp), ih (by simp),
        @joined_cons (m :: ms) n (by simp)]
      simp

theorem joined_ne_nil (h : ∀ n ∈ names, SegmentName n) (hne : names ≠ []) : joined names ≠ [] := by
  obtain ⟨n, ns, rfl⟩ := List.exists_cons_of_ne_nil hne
  have hn := (h n (by simp)).nonempty
  cases ns with
  | nil => simpa [joined] using hn
  | cons m ms =>
    rw [joined_cons (by simp)]
    simp

theorem hasRoot_joined (h : ∀ n ∈ names, SegmentName n) : hasRoot (joined names) = false := by
  cases names with
  | nil => rfl
  | cons n ns =>
    have hn := h n (by simp)
    obtain ⟨c, cs, rfl⟩ := List.exists_cons_of_ne_nil hn.nonempty
    have hc : c ≠ slash := fun he => hn.noSlash (by simp [he])
    cases ns with
    | nil => simpa [joined, hasRoot] using hc
    | cons m ms =>
      rw [joined_cons (by simp)]
      simpa [hasRoot] using hc

theorem includeCurDir_joined (h : ∀ n ∈ names, SegmentName n) : includeCurDir (joined names) = false := by
  cases names with
  | nil => rfl
  | cons n ns =>
    have hn := h n (by simp)
    obtain ⟨c, cs, rfl⟩ := List.exists_cons_of_ne_nil hn.nonempty
    cases cs with
    | nil =>
      have hc : c ≠ dot := fun he => hn.notDot (by simp [he])
      cases ns with
      | nil => simpa [joined, includeCurDir] using hc
      | cons m ms =>
        rw [joined_cons (by simp)]
        simp [includeCurDir, hc]
    | cons d ds =>
      have hd : d ≠ slash := fun he => hn.noSlash (by simp [he])
      cases ns with
      | nil => simp [joined, includeCurDir, hd]
      | cons m ms =>
        rw [joined_cons (by simp)]
        simp [includeCurDir, hd]

theorem lenBeforeBody_joined (h : ∀ n ∈ names, SegmentName n) : lenBeforeBody (joined names) = 0 := by
  simp [lenBeforeBody, hasRoot_joined h, includeCurDir_joined h]

theorem segments_joined (h : ∀ n ∈ names, SegmentName n) (hne : names ≠ []) :
    segments (joined names) = names := by
  rw [segments, lenBeforeBody_joined h, List.drop_zero]
  exact List.splitOn_intercalate slash (fun n hn => (h n hn).noSlash) hne

theorem components_segments (h : ∀ n ∈ names, SegmentName n) :
    components (joined names) = names.map segmentComponent := by
  by_cases hne : names = []
  · subst hne
    decide
  rw [components, hasRoot_joined h, includeCurDir_joined h, segments_joined h hne]
  simp only [Bool.false_eq_true, if_false, List.nil_append]
  rw [← List.filterMap_eq_map]
  exact List.filterMap_congr fun n hn => parse_segment (h n hn)

theorem components_joined (h : ∀ n ∈ names, PlainName n) :
    components (joined names) = names.map .normal := by
  rw [components_segments fun n hn => (h n hn).segment]
  exact List.map_congr_left fun n hn => segmentComponent_plain (h n hn)

theorem joined_inj {names' : List Bytes} (h : ∀ n ∈ names, PlainName n)
    (h' : ∀ n ∈ names', PlainName n) (he : joined names = joined names') : names = names' := by
  have hc := congrArg components he
  rw [components_joined h, components_joined h'] at hc
  exact List.map_injective_iff.mpr (fun _ _ he => by injection he) hc

theorem trimRight_segments (h : ∀ n ∈ names, SegmentName n) : trimRight names = names := by
  rw [trimRight, List.rdropWhile_eq_self_iff]
  intro hne
  simp [parse_segment (h _ (List.getLast_mem hne))]

theorem parent_segments (h : ∀ n ∈ names ++ [name], SegmentName n) :
    parent (joined (names ++ [name])) = some (joined names) := by
  have hnames : ∀ n ∈ names, SegmentName n := fun n hn => h n (by simp [hn])
  simp only [parent, components_segments h, List.map_append, List.map_cons, List.map_nil,
    List.getLast?_append, List.getLast?_singleton, Option.some_or, lenBeforeBody_joined h,
    List.take_zero, List.nil_append, segments_joined h (by simp), trimRight_segments h,
    List.dropLast_concat, trimRight_segments hnames]
  unfold segmentComponent
  split_ifs <;> rfl

theorem pop_segments (h : ∀ n ∈ names ++ [name], SegmentName n) :
    pop (joined (names ++ [name])) = joined names := by
  simp only [pop, parent_segments h]
  by_cases hne : names = []
  · simp [hne, joined]
  · simp [joined_concat hne]

theorem push_segments (h : ∀ n ∈ names, SegmentName n) (hn : SegmentName name) :
    push (joined names) name = joined (names ++ [name]) := by
  have hroot : hasRoot name = false := by
    have := @hasRoot_joined [name] (by simpa using hn)
    simpa [joined] using this
  unfold push
  rw [hroot]
  by_cases hne : names = []
  · simp [hne, joined]
  · have hlast : (joined names).getLast? ≠ some slash := by
      obtain ⟨ns, n, rfl⟩ := List.eq_nil_or_concat names |>.resolve_left hne
      rw [List.concat_eq_append] at h ⊢
      have hn' := h n (by simp)
      intro he
      have hmem : slash ∈ n := by
        have hl : n.getLast? = some slash := by
          by_cases hns : ns = []
          · simpa [hns, joined] using he
          · rw [joined_concat hns, List.getLast?_append_of_ne_nil _ (by simp),
              List.getLast?_cons] at he
            obtain ⟨x, hx⟩ := Option.ne_none_iff_exists'.mp
              (mt List.getLast?_eq_none_iff.mp hn'.nonempty)
            simpa [hx] using he
        exact List.mem_of_getLast? hl
      exact hn'.noSlash hmem
    simp [joined_ne_nil h hne, hlast, joined_concat hne]

theorem pop_joined (h : ∀ n ∈ names ++ [name], PlainName n) :
    pop (joined (names ++ [name])) = joined names :=
  pop_segments fun n hn => (h n hn).segment

theorem push_joined (h : ∀ n ∈ names, PlainName n) (hn : PlainName name) :
    push (joined names) name = joined (names ++ [name]) :=
  push_segments (fun n hn => (h n hn).segment) hn.segment

end Joined

section Texts

theorem not_mem_of_mem_splitOn {α : Type} [DecidableEq α] {a : α} {s n : List α}
    (h : n ∈ s.splitOn a) : a ∉ n := by
  induction s generalizing n with
  | nil =>
    obtain rfl : n = [] := by simpa using h
    simp
  | cons c s ih =>
    by_cases hc : c = a
    · subst hc
      have hcons : (c :: s).splitOn c = [] :: s.splitOn c := List.splitOn_append_cons_self [] s
      rw [hcons, List.mem_cons] at h
      rcases h with rfl | h
      · simp
      · exact ih h
    · have hcons : (c :: s).splitOn a = (s.splitOn a).modifyHead (c :: ·) := by
        simp [List.splitOn, List.splitOnP_cons_eq_if_modifyHead, hc]
      obtain ⟨x, xs, hs⟩ := List.exists_cons_of_ne_nil (List.splitOn_ne_nil a s)
      rw [hcons, hs, List.modifyHead_cons, List.mem_cons] at h
      rcases h with rfl | h
      · exact fun hmem => (List.mem_cons.mp hmem).elim (fun he => hc he.symm) (ih (by simp [hs]))
      · exact ih (by simp [hs, h])

def Component.text : Component → Bytes
  | .rootDir => [slash]
  | .curDir => [dot]
  | .parentDir => [dot, dot]
  | .normal name => name

def texts (p : Bytes) : List Bytes := (components p).map Component.text

theorem texts_segments {names : List Bytes} (h : ∀ n ∈ names, SegmentName n) :
    texts (joined names) = names := by
  rw [texts, components_segments h, List.map_map]
  refine List.map_id'' (fun n => ?_) names
  simp only [Function.comp_apply, segmentComponent]
  split_ifs with hn
  · exact hn.symm
  · rfl

theorem text_noSlash {p name : Bytes} (h : name ∈ texts p) (hslash : slash ∈ name) : name = [slash] := by
  obtain ⟨c, hc, rfl⟩ := List.mem_map.mp h
  rw [components, List.mem_append] at hc
  rcases hc with hc | hc
  · split_ifs at hc
    · rw [List.mem_singleton.mp hc]
      rfl
    · rw [List.mem_singleton.mp hc] at hslash
      exact absurd hslash (by decide)
    · cases hc
  · obtain ⟨seg, hseg, hparse⟩ := List.mem_filterMap.mp hc
    have hno : slash ∉ seg := not_mem_of_mem_splitOn hseg
    unfold parseSingleComponent at hparse
    split_ifs at hparse with h1 h2 <;> cases hparse
    · exact absurd hslash (by decide)
    · exact absurd hslash hno

end Texts

section Parts

def parts (p : Bytes) : List Bytes := p.splitOn slash

theorem parts_ne_nil (p : Bytes) : parts p ≠ [] := List.splitOn_ne_nil _ _

theorem joined_parts (p : Bytes) : joined (parts p) = p := List.intercalate_splitOn slash

theorem parts_append (a r : Bytes) : parts (a ++ slash :: r) = parts a ++ parts r :=
  List.splitOn_append_cons_self a r

theorem parts_cons {c : UInt8} (hc : c ≠ slash) (p : Bytes) :
    parts (c :: p) = (parts p).modifyHead (c :: ·) := by
  simp [parts, List.splitOn, List.splitOnP_cons_eq_if_modifyHead, hc]

theorem parts_slash (p : Bytes) : parts (slash :: p) = [] :: parts p := parts_append [] p

theorem parts_noSlash {n : Bytes} (h : slash ∉ n) : parts n = [n] := by
  have hsplit : ([slash].intercalate [n]).splitOn slash = [n] :=
    List.splitOn_intercalate slash (by simpa using h) (by simp)
  simpa [parts] using hsplit

def lead (a : Bytes) : List Component := if a = [] then [.rootDir] else components a

theorem lenBeforeBody_le_one (p : Bytes) : lenBeforeBody p ≤ 1 := by
  cases p with
  | nil => decide
  | cons c p =>
    rw [lenBeforeBody]
    by_cases hc : c = slash
    · subst hc
      have hcur : includeCurDir (slash :: p) = false := by cases p <;> rfl
      rw [hcur]
      exact Nat.le_refl 1
    · have hroot : hasRoot (c :: p) = false := beq_false_of_ne hc
      rw [hroot]
      cases includeCurDir (c :: p) <;> decide

theorem components_append_slash (a r : Bytes) :
    components (a ++ slash :: r) = lead a ++ (parts r).filterMap parseSingleComponent := by
  cases a with
  | nil =>
    have hcur : includeCurDir (slash :: r) = false := by cases r <;> rfl
    have hseg : segments (slash :: r) = parts r := by
      rw [segments, lenBeforeBody, hcur]
      rfl
    rw [List.nil_append, components, hcur, hseg]
    rfl
  | cons c a =>
    have hroot : hasRoot (c :: a ++ slash :: r) = hasRoot (c :: a) := rfl
    have hcur : includeCurDir (c :: a ++ slash :: r) = includeCurDir (c :: a) := by
      cases a with
      | nil => simp [includeCurDir]
      | cons d a => rfl
    have hlen : lenBeforeBody (c :: a) ≤ (c :: a).length := (lenBeforeBody_le_one _).trans (by simp)
    have hseg : segments (c :: a ++ slash :: r) = segments (c :: a) ++ parts r := by
      rw [segments, lenBeforeBody, hcur, hroot, ← lenBeforeBody, List.drop_append_of_le_length hlen]
      exact parts_append _ _
    rw [components, hcur, hseg, List.filterMap_append, ← List.append_assoc]
    rfl

theorem parts_concat (a b : Bytes) : ∃ front x y rest,
    parts a = front ++ [x] ∧ parts b = y :: rest ∧ parts (a ++ b) = front ++ (x ++ y) :: rest := by
  induction a with
  | nil =>
    obtain ⟨y, rest, hb⟩ := List.exists_cons_of_ne_nil (parts_ne_nil b)
    exact ⟨[], [], y, rest, rfl, hb, hb⟩
  | cons c a ih =>
    obtain ⟨front, x, y, rest, ha, hb, hab⟩ := ih
    by_cases hc : c = slash
    · subst hc
      refine ⟨[] :: front, x, y, rest, ?_, hb, ?_⟩
      · rw [parts_slash, ha]
        rfl
      · rw [List.cons_append, parts_slash, hab]
        rfl
    · rw [List.cons_append, parts_cons hc, parts_cons hc, ha, hab]
      cases front with
      | nil => exact ⟨[], c :: x, y, rest, rfl, hb, rfl⟩
      | cons n front => exact ⟨(c :: n) :: front, x, y, rest, rfl, hb, rfl⟩

theorem prefix_of_mem_parts {a b n : Bytes} (h : n ∈ parts a) : ∃ n' ∈ parts (a ++ b), n <+: n' := by
  obtain ⟨front, x, y, rest, ha, -, hab⟩ := parts_concat a b
  rw [ha, List.mem_append, List.mem_singleton] at h
  rw [hab]
  rcases h with h | rfl
  · exact ⟨n, by simp [h], List.prefix_rfl⟩
  · exact ⟨n ++ y, by simp, List.prefix_append n y⟩

theorem infix_of_mem_parts {p n : Bytes} (h : n ∈ parts p) : n <:+: p := by
  rw [← joined_parts p]
  generalize parts p = names at h
  induction names with
  | nil => cases h
  | cons m names ih =>
    cases names with
    | nil =>
      obtain rfl := List.mem_singleton.mp h
      simp [joined]
    | cons m' names =>
      rw [joined_cons (by simp)]
      rcases List.mem_cons.mp h with rfl | h
      · exact ⟨[], slash :: joined (m' :: names), rfl⟩
      · obtain ⟨l, r, he⟩ := ih h
        refine ⟨m ++ slash :: l, r, ?_⟩
        rw [← he]
        simp

theorem normal_mem_parts {p name : Bytes} (h : .normal name ∈ components p) : name ∈ parts p := by
  rw [components, List.mem_append] at h
  rcases h with h | h
  · split_ifs at h <;> simp at h
  obtain ⟨s, hs, hparse⟩ := List.mem_filterMap.mp h
  have hname : s = name ∧ s ≠ [] := by
    unfold parseSingleComponent at hparse
    split_ifs at hparse with h1 h2
    · cases hparse
    · exact ⟨by simpa using hparse, fun hn => h1 (Or.inl hn)⟩
  obtain ⟨rfl, hne⟩ := hname
  change s ∈ parts (p.drop (lenBeforeBody p)) at hs
  by_cases hroot : hasRoot p = true
  · obtain ⟨r, rfl⟩ : ∃ r, p = slash :: r := by
      cases p with
      | nil => simp [hasRoot] at hroot
      | cons c r => exact ⟨r, by simpa [hasRoot] using hroot⟩
    have hlen : lenBeforeBody (slash :: r) = 1 := by
      cases r <;> rfl
    rw [hlen] at hs
    rw [parts_slash]
    exact List.mem_cons_of_mem _ hs
  by_cases hcur : includeCurDir p = true
  · have hlen : lenBeforeBody p = 1 := by simp [lenBeforeBody, hroot, hcur]
    rw [hlen] at hs
    match p, hcur with
    | [c], _ => exact absurd (List.mem_singleton.mp hs) hne
    | c :: d :: r, hcur =>
      obtain ⟨rfl, rfl⟩ : c = dot ∧ d = slash := by simpa [includeCurDir] using hcur
      have hs : s ∈ parts (slash :: r) := hs
      rw [parts_slash, List.mem_cons] at hs
      have hparts : parts (dot :: slash :: r) = [dot] :: parts r := parts_append [dot] r
      rw [hparts]
      exact List.mem_cons_of_mem _ (hs.resolve_left hne)
  · have hlen : lenBeforeBody p = 0 := by simp [lenBeforeBody, hroot, hcur]
    rwa [hlen] at hs

end Parts

section Spelling

theorem normal_noSlash {p name : Bytes} (h : .normal name ∈ components p) : slash ∉ name :=
  not_mem_of_mem_splitOn (normal_mem_parts h)

theorem map_text_of_normal {cs : List Component} (h : ∀ c ∈ cs, ∃ name, c = .normal name) :
    cs.map Component.text = cs.filterMap normalName := by
  induction cs with
  | nil => rfl
  | cons c cs ih =>
    obtain ⟨name, rfl⟩ := h c List.mem_cons_self
    rw [List.map_cons, ih fun c hc => h c (List.mem_cons_of_mem _ hc)]
    rfl

/-- A path without `..` is spelled by its names, after a slash or a dot that
it may begin with. -/
theorem texts_of_noParent {p : Bytes} (h : Component.parentDir ∉ components p) :
    texts p = (if hasRoot p then [[slash]] else if includeCurDir p then [[dot]] else []) ++
      pathNames p := by
  have hnormal : ∀ c ∈ (segments p).filterMap parseSingleComponent, ∃ name, c = .normal name := by
    intro c hc
    have hne : c ≠ .parentDir := by
      rintro rfl
      exact h (List.mem_append_right _ hc)
    obtain ⟨s, -, hs⟩ := List.mem_filterMap.mp hc
    unfold parseSingleComponent at hs
    split_ifs at hs
    · exact absurd (Option.some.inj hs).symm hne
    · exact ⟨s, (Option.some.inj hs).symm⟩
  have hbody := map_text_of_normal hnormal
  rw [texts, pathNames, components, List.map_append, List.filterMap_append, hbody]
  split_ifs <;> rfl

end Spelling

section Children

variable {d n : Bytes}

theorem hasRoot_noSlash (hn : slash ∉ n) : hasRoot n = false := by
  cases n with
  | nil => rfl
  | cons c n =>
    rw [List.mem_cons, not_or] at hn
    exact beq_false_of_ne (Ne.symm hn.1)

theorem push_nil (hn : slash ∉ n) : push [] n = n := by
  simp [push, hasRoot_noSlash hn]

theorem components_nil : components [] = [] := by decide

theorem components_of_plain (h : PlainName n) : components n = [.normal n] := by
  have hjoined : components (joined [n]) = [n].map .normal := components_joined (by simpa using h)
  simpa [joined] using hjoined

theorem parse_plain (h : PlainName n) : parseSingleComponent n = some (.normal n) := by
  rw [parse_segment h.segment, segmentComponent_plain h]

theorem components_name (hn : slash ∉ n) (x : Bytes) :
    components (x ++ slash :: n) = lead x ++ (parseSingleComponent n).toList := by
  rw [components_append_slash, parts_noSlash hn]
  cases h : parseSingleComponent n <;> simp [h]

theorem plainName_of_parse {name : Bytes} (hn : slash ∉ n)
    (h : parseSingleComponent n = some (.normal name)) : PlainName n := by
  unfold parseSingleComponent at h
  split_ifs at h with hskip hparent
  · cases h
  · rw [not_or] at hskip
    exact ⟨hskip.1, hn, hskip.2, hparent⟩

/-- A name goes after the slash of a directory, or after one that is added. -/
theorem push_cases (hn : slash ∉ n) (hd : d ≠ []) :
    ∃ x, push d n = x ++ slash :: n ∧ components d = lead x := by
  by_cases hlast : d.getLast? = some slash
  · have hsplit := (List.dropLast_append_getLast? slash hlast).symm
    refine ⟨d.dropLast, ?_, ?_⟩
    · rw [push, hasRoot_noSlash hn, if_neg (by simp), if_neg (by simp [hlast])]
      nth_rewrite 1 [hsplit]
      simp
    · nth_rewrite 1 [hsplit]
      rw [components_append_slash]
      exact List.append_nil _
  · refine ⟨d, ?_, (if_neg hd).symm⟩
    rw [push, hasRoot_noSlash hn, if_neg (by simp), if_pos ⟨hd, hlast⟩]

theorem plainName_of_components {name : Bytes} (hn : slash ∉ n) (h : components n = [.normal name]) :
    PlainName n := by
  have hmem : .normal name ∈ components n := h ▸ List.mem_singleton.mpr rfl
  have hname := normal_mem_parts hmem
  rw [parts_noSlash hn, List.mem_singleton] at hname
  subst hname
  refine ⟨?_, hn, (normal_name hmem).1, (normal_name hmem).2⟩
  rintro rfl
  rw [components_nil] at h
  cases h

end Children

end ProgramExplorer.UnixPath
