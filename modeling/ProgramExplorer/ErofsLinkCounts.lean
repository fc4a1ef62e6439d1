import ProgramExplorer.ErofsAdds
import ProgramExplorer.ErofsLinks

/-!
# What the names of a hard link share

`resolve_links` gives a link the blocks and the tail of its target, makes it
a regular file with a count of two, and adds one to the count of the target.
The names of one underlying file are the name it was added under and every
link that leads there, directly or through another link. Only the target of a
link is told of the new name, and only once, so the counts are the number of
names as long as no file has more than two of them.
-/

set_option autoImplicit false

namespace ProgramExplorer.ErofsLinkCounts
open ByteStrings OrderedMap UnixPath FileTree StateRules ErofsTree ErofsTreeRelation
open ErofsDisk ErofsBuilder ErofsCursor ErofsContents ErofsCalls ErofsLinks ErofsPaths
open ErofsAdds

section Items

abbrev Items := List Bytes → Option Item

def itemOf (v : Option (Leaf ⊕ DirInfo)) : Option Item := v.bind fun w => w.getLeft?.bind item

def itemAt (d : Dir Leaf DirInfo) : Items := fun q => itemOf (nodeAt d q)

def raised (i : Item) : Item := { i with nLinks := i.nLinks + 1 }

def linkItem (metadata : Meta) (i : Item) : Item :=
  ⟨.regularFile, metadata, i.startBlock, 2, i.len, i.tail, none⟩

def linked (l : Link) (m : Items) : Items := fun q =>
  if q = pathNames l.1 then (m (pathNames l.2.1)).map (linkItem l.2.2)
  else if pathNames l.1 <+: q then none
  else if q = pathNames l.2.1 then (m q).map raised else m q

theorem withLeaf_of_leaf {φ δ : Type} {d : Dir φ δ} {names : List Bytes} {x y : φ} (info : δ)
    (h : nodeAt d names = some (.inl y)) :
    withLeaf info names x (nodeAt d) = Function.update (nodeAt d) names (some (.inl x)) := by
  ext1 q
  by_cases hq : q = names
  · simp [withLeaf, hq]
  rw [withLeaf, if_neg hq, Function.update_of_ne hq]
  by_cases hp : names <+: q
  · obtain ⟨r, rfl⟩ := hp
    rw [if_pos (List.prefix_append _ _), nodeAt_below_leaf h (by simpa using hq)]
  rw [if_neg hp, wayTo]
  split_ifs with hw
  · obtain ⟨r, rfl⟩ := hw
    have hne : nodeAt d (q ++ r) ≠ none := by simp [h]
    obtain ⟨v, hv⟩ := Option.ne_none_iff_exists'.mp (nodeAt_of_append hne)
    simp [hv]
  · rfl

theorem linkTarget_ok {name : Bytes} {c c' : Dir Leaf DirInfo} {a : UInt32 × ℕ × Option Bytes}
    (h : linkTarget (some name) c = .ok a c') :
    ∃ x x' i, lookup name c.children = some (.leaf x) ∧ item x = some i ∧
      a = (i.startBlock, i.len, i.tail) ∧ item x' = some (raised i) ∧
      c' = setChild name (.leaf x') c := by
  unfold linkTarget at h
  cases hl : lookup name c.children with
  | none => simp [hl] at h
  | some t =>
    cases t with
    | dir info cs => simp [hl] at h
    | leaf x =>
      cases x with
      | file f =>
        simp only [hl, EStateM.Result.ok.injEq] at h
        exact ⟨.file f, _, _, rfl, rfl, h.1.symm, rfl, h.2.symm⟩
      | symlink s =>
        simp only [hl, EStateM.Result.ok.injEq] at h
        exact ⟨.symlink s, _, _, rfl, rfl, h.1.symm, rfl, h.2.symm⟩
      | dot => simp [hl] at h
      | dotDot => simp [hl] at h

theorem lookupOnly_linkTarget {path : Bytes} {d d' : Dir Leaf DirInfo} {a : UInt32 × ℕ × Option Bytes}
    (h : lookupOnly path linkTarget d = .ok a d') :
    ∃ x x' i, nodeAt d (pathNames path) = some (.inl x) ∧ item x = some i ∧
      a = (i.startBlock, i.len, i.tail) ∧ item x' = some (raised i) ∧
      nodeAt d' = Function.update (nodeAt d) (pathNames path) (some (.inl x')) := by
  obtain ⟨dirs, last, c, c', hp, hr, hk, rfl⟩ := lookupOnly_ok Dir.default h
  cases last with
  | none => cases hk
  | some name =>
    have hn := pathRoute_not_dot hp
    have hdirs : ∀ n ∈ dirs, ¬ IsDot n := fun n hm => hn n (by simp [hm])
    rw [pathRoute_names hp]
    obtain ⟨x, x', i, hl, hi, ha, hi', rfl⟩ := linkTarget_ok hk
    have hx : nodeAt d (dirs ++ [name]) = some (.inl x) := by
      rw [← nodeAt_reach bare_default hdirs hr (by simp), nodeAt_cons _ (hn name (by simp)), hl]
      rfl
    refine ⟨x, x', i, hx, hi, ha, hi', ?_⟩
    rw [Option.toList_some, ← withLeaf_of_leaf DirInfo.default hx]
    ext1 q
    exact nodeAt_setLeaf bare_default hn hr q

theorem itemOf_wayTo (names q : List Bytes) (info : DirInfo)
    (m : List Bytes → Option (Leaf ⊕ DirInfo)) : itemOf (wayTo info names m q) = itemOf (m q) := by
  unfold wayTo
  split_ifs
  · cases m q <;> rfl
  · rfl

theorem resolveLink_items {l : Link} {d d' : Dir Leaf DirInfo} (h : resolveLink l d = .ok () d') :
    (itemAt d (pathNames l.2.1)).isSome ∧ itemAt d' = linked l (itemAt d) := by
  obtain ⟨a, d₁, htarget, hadd⟩ := bind_eq_ok.mp h
  obtain ⟨x, x', i, hx, hi, rfl, hi', hd₁⟩ := lookupOnly_linkTarget htarget
  have hitem : itemAt d (pathNames l.2.1) = some i := by simp [itemAt, hx, itemOf, hi]
  refine ⟨by simp [hitem], ?_⟩
  ext1 q
  rw [itemAt, (addLeaf_ok bare_default hadd).2, withLeaf, linked]
  by_cases hq : q = pathNames l.1
  · rw [if_pos hq, if_pos hq, hitem]
    rfl
  rw [if_neg hq, if_neg hq]
  by_cases hp : pathNames l.1 <+: q
  · rw [if_pos hp, if_pos hp]
    rfl
  rw [if_neg hp, if_neg hp, itemOf_wayTo, hd₁]
  by_cases hqt : q = pathNames l.2.1
  · subst hqt
    rw [if_pos rfl, hitem, Function.update_self]
    exact hi'
  · rw [if_neg hqt, Function.update_of_ne hqt]
    rfl

end Items

section Names

def origin (links : List Link) : List Bytes → List Bytes :=
  links.foldl (fun o l => Function.update o (pathNames l.1) (o (pathNames l.2.1))) id

theorem origin_concat (front : List Link) (l : Link) :
    origin (front ++ [l]) =
      Function.update (origin front) (pathNames l.1) (origin front (pathNames l.2.1)) := by
  simp [origin]

def sources (links : List Link) : List (List Bytes) := links.map fun l => origin links (pathNames l.1)

def namesOf (links : List Link) (m : Items) (r : List Bytes) : Set (List Bytes) :=
  {q | (m q).isSome ∧ origin links q = r}

def SameData (i j : Item) : Prop := i.startBlock = j.startBlock ∧ i.len = j.len ∧ i.tail = j.tail

/-- What each path shares with the file it is a name of, while links are
resolved that take the place of no name of a linked file. -/
structure Shares (m₀ : Items) (links : List Link) (m : Items) : Prop where
  behind : ∀ q i, m q = some i → ∃ i₀, m₀ (origin links q) = some i₀ ∧ SameData i i₀ ∧
    (i.fileType = .regularFile ∨ i.fileType = i₀.fileType) ∧
    (origin links q = q → i.fileType = i₀.fileType)
  names : ∀ q, (m q).isSome → origin links q = q ∨ ∃ l ∈ links, pathNames l.1 = q
  paths : ∀ l ∈ links, ∃ i, m (pathNames l.1) = some i ∧ i.fileType = .regularFile
  targets : ∀ l ∈ links, (m (pathNames l.2.1)).isSome ∧
    origin links (pathNames l.1) = origin links (pathNames l.2.1)
  sources : ∀ r ∈ sources links, origin links r = r ∧ (m r).isSome ∧ ∃ l ∈ links, pathNames l.2.1 = r

structure Counts (links : List Link) (m : Items) : Prop where
  finite : ∀ r, (namesOf links m r).Finite
  size : ∀ q, (m q).isSome →
    (namesOf links m (origin links q)).ncard = (sources links).count (origin links q) + 1
  alone : ∀ q i, m q = some i → (sources links).count (origin links q) = 0 → i.nLinks = 1
  pair : ∀ q i, m q = some i → (sources links).count (origin links q) = 1 → i.nLinks = 2
  more : ∀ r, 2 ≤ (sources links).count r → ∃ q i, m q = some i ∧ origin links q = r ∧ i.nLinks = 2

theorem mem_sources {links : List Link} {l : Link} (h : l ∈ links) :
    origin links (pathNames l.1) ∈ sources links := List.mem_map_of_mem h

theorem Counts.only_name {m : Items} {links : List Link} (hc : Counts links m) {q q' : List Bytes}
    (hq : (m q).isSome) (hq' : (m q').isSome) (ho : origin links q' = origin links q)
    (h0 : (sources links).count (origin links q) = 0) : q = q' := by
  have hone := hc.size q hq
  rw [h0, Set.ncard_eq_one] at hone
  obtain ⟨a, ha⟩ := hone
  have hqa : q ∈ namesOf links m (origin links q) := ⟨hq, rfl⟩
  have hqa' : q' ∈ namesOf links m (origin links q) := ⟨hq', ho⟩
  rw [ha, Set.mem_singleton_iff] at hqa hqa'
  exact hqa.trans hqa'.symm

end Names

section Step

variable {m₀ m : Items} {front : List Link} {l : Link}

theorem ne_of_not_above {p q : List Bytes} (h : ¬ p <+: q) : q ≠ p := by
  rintro rfl
  exact h List.prefix_rfl

theorem linked_path (l : Link) (m : Items) :
    linked l m (pathNames l.1) = (m (pathNames l.2.1)).map (linkItem l.2.2) := if_pos rfl

theorem linked_other {q : List Bytes} (hp : ¬ pathNames l.1 <+: q) (ht : q ≠ pathNames l.2.1) :
    linked l m q = m q := by
  rw [linked, if_neg (ne_of_not_above hp), if_neg hp, if_neg ht]

theorem origin_path (front : List Link) (l : Link) :
    origin (front ++ [l]) (pathNames l.1) = origin front (pathNames l.2.1) := by
  rw [origin_concat, Function.update_self]

theorem origin_other {q : List Bytes} (hp : q ≠ pathNames l.1) :
    origin (front ++ [l]) q = origin front q := by
  rw [origin_concat, Function.update_of_ne hp]

variable (hown : ¬ pathNames l.1 <+: pathNames l.2.1) (ht : (m (pathNames l.2.1)).isSome)
include hown

theorem linked_target : linked l m (pathNames l.2.1) = (m (pathNames l.2.1)).map raised := by
  rw [linked, if_neg (ne_of_not_above hown), if_neg hown, if_pos rfl]

theorem linked_old {q : List Bytes} {j : Item} (hp : ¬ pathNames l.1 <+: q) (hq : m q = some j) :
    ∃ i, linked l m q = some i ∧ i.fileType = j.fileType := by
  by_cases hqt : q = pathNames l.2.1
  · subst hqt
    exact ⟨raised j, by rw [linked_target hown, hq]; rfl, rfl⟩
  · exact ⟨j, by rw [linked_other hp hqt, hq], rfl⟩

include ht

/-- A path is the new one, or it had an item that differs in its count at most. -/
theorem linked_cases {q : List Bytes} {i : Item} (hq : linked l m q = some i) :
    (∃ j, q = pathNames l.1 ∧ m (pathNames l.2.1) = some j ∧ i = linkItem l.2.2 j) ∨
      (∃ j, q = pathNames l.2.1 ∧ m q = some j ∧ i = raised j) ∨
      ¬ pathNames l.1 <+: q ∧ q ≠ pathNames l.2.1 ∧ m q = some i := by
  obtain ⟨j, hj⟩ := Option.isSome_iff_exists.mp ht
  by_cases hp : q = pathNames l.1
  · subst hp
    rw [linked_path, hj] at hq
    exact Or.inl ⟨j, rfl, hj, (Option.some.inj hq).symm⟩
  by_cases hqt : q = pathNames l.2.1
  · subst hqt
    rw [linked_target hown, hj] at hq
    exact Or.inr (Or.inl ⟨j, rfl, hj, (Option.some.inj hq).symm⟩)
  · rw [linked, if_neg hp, if_neg hqt] at hq
    split_ifs at hq with hbelow
    exact Or.inr (Or.inr ⟨hbelow, hqt, hq⟩)

theorem linked_isSome {q : List Bytes} : (linked l m q).isSome ↔
    q = pathNames l.1 ∨ ¬ pathNames l.1 <+: q ∧ (m q).isSome := by
  by_cases hp : q = pathNames l.1
  · simp [hp, linked_path, ht]
  by_cases hbelow : pathNames l.1 <+: q
  · simp [linked, hp, hbelow]
  by_cases hqt : q = pathNames l.2.1
  · simp [hqt, linked_target hown, ht, hown]
  · simp [linked_other hbelow hqt, hp, hbelow]

theorem mem_namesOf_concat {q r : List Bytes} : q ∈ namesOf (front ++ [l]) (linked l m) r ↔
    q = pathNames l.1 ∧ origin front (pathNames l.2.1) = r ∨
      ¬ pathNames l.1 <+: q ∧ q ∈ namesOf front m r := by
  rw [namesOf, Set.mem_ofPred_eq, linked_isSome hown ht, namesOf, Set.mem_ofPred_eq]
  by_cases hq : q = pathNames l.1
  · subst hq
    simp [origin_path]
  · simp [origin_other hq, hq, and_assoc]

omit hown ht
variable (h : Shares m₀ front m) (hnew : ∀ l' ∈ front,
  ¬ pathNames l.1 <+: pathNames l'.1 ∧ ¬ pathNames l.1 <+: pathNames l'.2.1)
include hnew

theorem sources_concat :
    sources (front ++ [l]) = sources front ++ [origin front (pathNames l.2.1)] := by
  rw [sources, List.map_append, List.map_singleton, origin_path]
  congr 1
  apply List.map_congr_left
  intro l' hl'
  exact origin_other (ne_of_not_above (hnew l' hl').1)

theorem count_concat (r : List Bytes) : (sources (front ++ [l])).count r =
    (sources front).count r + if origin front (pathNames l.2.1) = r then 1 else 0 := by
  rw [sources_concat hnew, List.count_append, List.count_singleton]
  simp

include h

/-- The new link takes the place of no name of a linked file. -/
theorem apart_of_source {q : List Bytes} (hq : (m q).isSome) (ho : origin front q ∈ sources front) :
    ¬ pathNames l.1 <+: q := by
  rcases h.names q hq with heq | ⟨l', hl', rfl⟩
  · obtain ⟨-, -, l', hl', htarget⟩ := h.sources _ ho
    rw [← heq, ← htarget]
    exact (hnew l' hl').2
  · exact (hnew l' hl').1

theorem apart_of_name (hc : Counts front m) {q q' : List Bytes} (hq : (m q).isSome)
    (hp : ¬ pathNames l.1 <+: q) (hq' : q' ∈ namesOf front m (origin front q)) :
    ¬ pathNames l.1 <+: q' := by
  by_cases h0 : origin front q ∈ sources front
  · exact apart_of_source h hnew hq'.1 (hq'.2 ▸ h0)
  · exact hc.only_name hq hq'.1 hq'.2 (List.count_eq_zero.mpr h0) ▸ hp

include ht

/-- A file that is linked for the first time is linked under the name it was added under. -/
theorem mem_sources_concat {r : List Bytes} (hr : r ∈ sources (front ++ [l])) :
    r ∈ sources front ∨ r = pathNames l.2.1 ∧ origin front r = r := by
  rw [sources_concat hnew, List.mem_append, List.mem_singleton] at hr
  rcases hr with hr | rfl
  · exact Or.inl hr
  · rcases h.names _ ht with ho | ⟨l', hl', hp⟩
    · exact Or.inr ⟨ho, congrArg (origin front) ho⟩
    · exact Or.inl (hp ▸ mem_sources hl')

include hown

theorem path_not_source : pathNames l.1 ∉ sources (front ++ [l]) := by
  intro hr
  rcases mem_sources_concat ht h hnew hr with hr | ⟨hr, -⟩
  · obtain ⟨-, -, l', hl', htarget⟩ := h.sources _ hr
    exact (hnew l' hl').2 (htarget ▸ List.prefix_rfl)
  · exact hown (hr ▸ List.prefix_rfl)

theorem shares_step : Shares m₀ (front ++ [l]) (linked l m) := by
  obtain ⟨j, hj⟩ := Option.isSome_iff_exists.mp ht
  have hpt : pathNames l.2.1 ≠ pathNames l.1 := ne_of_not_above hown
  constructor
  case behind =>
    intro q i hq
    rcases linked_cases hown ht hq with ⟨j', rfl, hj', rfl⟩ | ⟨j', rfl, hj', rfl⟩ | ⟨hp, -, hq'⟩
    · obtain ⟨i₀, h₀, hs, -⟩ := h.behind _ _ hj'
      refine ⟨i₀, (origin_path front l).symm ▸ h₀, hs, Or.inl rfl, fun ho => ?_⟩
      exact absurd (ho ▸ mem_sources (by simp)) (path_not_source hown ht h hnew)
    · rw [origin_other hpt]
      obtain ⟨i₀, h₀, hs, hty⟩ := h.behind _ _ hj'
      exact ⟨i₀, h₀, hs, hty⟩
    · rw [origin_other (ne_of_not_above hp)]
      exact h.behind _ _ hq'
  case names =>
    intro q hq
    rcases (linked_isSome hown ht).mp hq with rfl | ⟨hp, hq⟩
    · exact Or.inr ⟨l, by simp, rfl⟩
    · rw [origin_other (ne_of_not_above hp)]
      rcases h.names q hq with ho | ⟨l', hl', hp⟩
      · exact Or.inl ho
      · exact Or.inr ⟨l', by simp [hl'], hp⟩
  case paths =>
    intro l' hl'
    rcases List.mem_append.mp hl' with hl' | hl'
    · obtain ⟨i, hi, hty⟩ := h.paths l' hl'
      obtain ⟨i', hi', hty'⟩ := linked_old hown (hnew l' hl').1 hi
      exact ⟨i', hi', hty'.trans hty⟩
    · cases List.mem_singleton.mp hl'
      exact ⟨linkItem l.2.2 j, by rw [linked_path, hj]; rfl, rfl⟩
  case targets =>
    intro l' hl'
    rcases List.mem_append.mp hl' with hl' | hl'
    · obtain ⟨hsome, ho⟩ := h.targets l' hl'
      obtain ⟨hpath, htarget⟩ := hnew l' hl'
      rw [origin_other (ne_of_not_above htarget), origin_other (ne_of_not_above hpath)]
      exact ⟨(linked_isSome hown ht).mpr (Or.inr ⟨htarget, hsome⟩), ho⟩
    · cases List.mem_singleton.mp hl'
      rw [origin_path, origin_other hpt]
      exact ⟨(linked_isSome hown ht).mpr (Or.inr ⟨hown, ht⟩), rfl⟩
  case sources =>
    intro r hr
    rcases mem_sources_concat ht h hnew hr with hr | ⟨rfl, ho⟩
    · obtain ⟨ho, hsome, l', hl', htarget⟩ := h.sources r hr
      have hp : ¬ pathNames l.1 <+: r := apart_of_source h hnew hsome (ho.symm ▸ hr)
      exact ⟨(origin_other (ne_of_not_above hp)).trans ho,
        (linked_isSome hown ht).mpr (Or.inr ⟨hp, hsome⟩), l', by simp [hl'], htarget⟩
    · exact ⟨(origin_other hpt).trans ho, (linked_isSome hown ht).mpr (Or.inr ⟨hown, ht⟩), l, by simp, rfl⟩

theorem counts_step (hc : Counts front m) : Counts (front ++ [l]) (linked l m) := by
  obtain ⟨j, hj⟩ := Option.isSome_iff_exists.mp ht
  have hpt : pathNames l.2.1 ≠ pathNames l.1 := ne_of_not_above hown
  -- the names of a file that keeps one of them, with the new one
  have hnames : ∀ q, (m q).isSome → ¬ pathNames l.1 <+: q →
      namesOf (front ++ [l]) (linked l m) (origin front q) =
        if origin front (pathNames l.2.1) = origin front q then
          insert (pathNames l.1) (namesOf front m (origin front q))
        else namesOf front m (origin front q) := by
    intro q hq hp
    ext q'
    have hapart : q' ∈ namesOf front m (origin front q) → ¬ pathNames l.1 <+: q' :=
      fun hq' => apart_of_name h hnew hc hq hp hq'
    rw [mem_namesOf_concat hown ht, and_iff_right_of_imp hapart]
    split_ifs with ho
    · simp [ho]
    · simp [ho]
  have hsize : ∀ q, (m q).isSome → ¬ pathNames l.1 <+: q →
      (namesOf (front ++ [l]) (linked l m) (origin front q)).ncard =
        (sources (front ++ [l])).count (origin front q) + 1 := by
    intro q hq hp
    rw [hnames q hq hp, count_concat hnew]
    have hnot : pathNames l.1 ∉ namesOf front m (origin front q) :=
      fun hm => apart_of_name h hnew hc hq hp hm List.prefix_rfl
    split_ifs
    · rw [Set.ncard_insert_of_notMem hnot (hc.finite _), hc.size q hq]
    · rw [hc.size q hq, Nat.add_zero]
  constructor
  case finite =>
    intro r
    refine ((hc.finite r).insert (pathNames l.1)).subset fun q hq => ?_
    rcases (mem_namesOf_concat hown ht).mp hq with ⟨rfl, -⟩ | ⟨-, hq⟩
    · exact Set.mem_insert _ _
    · exact Set.mem_insert_of_mem _ hq
  case size =>
    intro q hq
    rcases (linked_isSome hown ht).mp hq with rfl | ⟨hp, hq⟩
    · rw [origin_path]
      exact hsize _ ht hown
    · rw [origin_other (ne_of_not_above hp)]
      exact hsize q hq hp
  case alone =>
    intro q i hq hn
    rw [count_concat hnew] at hn
    rcases linked_cases hown ht hq with ⟨j', rfl, hj', rfl⟩ | ⟨j', rfl, hj', rfl⟩ | ⟨hp, -, hq'⟩
    · rw [origin_path, if_pos rfl] at hn
      omega
    · rw [origin_other hpt, if_pos rfl] at hn
      omega
    · rw [origin_other (ne_of_not_above hp)] at hn
      exact hc.alone q i hq' (by omega)
  case pair =>
    intro q i hq hn
    rw [count_concat hnew] at hn
    rcases linked_cases hown ht hq with ⟨j', rfl, hj', rfl⟩ | ⟨j', rfl, hj', rfl⟩ | ⟨hp, hqt, hq'⟩
    · rfl
    · rw [origin_other hpt, if_pos rfl] at hn
      have h1 : j'.nLinks = 1 := hc.alone _ _ hj' (by omega)
      simp only [raised, h1]
      rfl
    · rw [origin_other (ne_of_not_above hp)] at hn
      by_cases ho : origin front (pathNames l.2.1) = origin front q
      · -- the file had one name before, so the target is that name
        rw [if_pos ho] at hn
        exact absurd (hc.only_name (by simp [hq']) ht ho (by omega)) hqt
      · rw [if_neg ho] at hn
        exact hc.pair q i hq' hn
  case more =>
    intro r hn
    rw [count_concat hnew] at hn
    by_cases hr : origin front (pathNames l.2.1) = r
    · exact ⟨pathNames l.1, linkItem l.2.2 j, by rw [linked_path, hj]; rfl,
        by rw [origin_path, hr], rfl⟩
    · rw [if_neg hr] at hn
      obtain ⟨q, i, hq, ho, hi⟩ := hc.more r hn
      have hqt : q ≠ pathNames l.2.1 := by
        rintro rfl
        exact hr ho
      have hp : ¬ pathNames l.1 <+: q :=
        apart_of_source h hnew (by simp [hq]) (ho ▸ List.count_pos_iff.mp (by omega))
      exact ⟨q, i, by rw [linked_other hp hqt, hq], by rw [origin_other (ne_of_not_above hp), ho], hi⟩

end Step

section Runs

/-- No link is at or above its own target, or at or above the path or the
target of an earlier link. -/
def Additive (links : List Link) : Prop :=
  (∀ l ∈ links, ¬ pathNames l.1 <+: pathNames l.2.1) ∧ links.Pairwise fun a b =>
    ¬ pathNames b.1 <+: pathNames a.1 ∧ ¬ pathNames b.1 <+: pathNames a.2.1

instance (links : List Link) : Decidable (Additive links) := inferInstanceAs (Decidable (_ ∧ _))

theorem shares_start (m₀ : Items) : Shares m₀ [] m₀ where
  behind := fun _ i hi => ⟨i, hi, ⟨rfl, rfl, rfl⟩, Or.inr rfl, fun _ => rfl⟩
  names := fun _ _ => Or.inl rfl
  paths := fun _ hl => by cases hl
  targets := fun _ hl => by cases hl
  sources := fun _ hr => by cases hr

theorem namesOf_start (m₀ : Items) {r : List Bytes} (hr : (m₀ r).isSome) : namesOf [] m₀ r = {r} := by
  ext q
  simp only [namesOf, Set.mem_ofPred_eq, Set.mem_singleton_iff]
  constructor
  · exact fun h => h.2
  · rintro rfl
    exact ⟨hr, rfl⟩

theorem counts_start {m₀ : Items} (h₁ : ∀ q i, m₀ q = some i → i.nLinks = 1) : Counts [] m₀ where
  finite := fun r => (Set.finite_singleton r).subset fun _ hq => hq.2
  size := fun q hq => by
    change (namesOf [] m₀ q).ncard = 1
    rw [namesOf_start m₀ hq, Set.ncard_singleton]
  alone := fun q i hi _ => h₁ q i hi
  pair := fun _ _ _ hc => by cases hc
  more := fun _ hc => by cases hc

theorem run_resolved {links : List Link} {d d' : Dir Leaf DirInfo}
    (h : links.forM resolveLink d = .ok () d') (hf : Additive links)
    (h₁ : ∀ q i, itemAt d q = some i → i.nLinks = 1) :
    Shares (itemAt d) links (itemAt d') ∧ Counts links (itemAt d') := by
  induction links using List.reverseRecOn generalizing d' with
  | nil =>
    obtain ⟨-, rfl⟩ := pure_eq_ok.mp h
    exact ⟨shares_start _, counts_start h₁⟩
  | append_singleton front l ih =>
    obtain ⟨d₁, hfront, hstep⟩ := forM_concat_eq_ok.mp h
    obtain ⟨hpairs, -, hnew⟩ := List.pairwise_append.mp hf.2
    have hnew : ∀ l' ∈ front, _ := fun l' hl' => hnew l' hl' l (by simp)
    have hown := hf.1 l (by simp)
    obtain ⟨hs, hc⟩ := ih hfront ⟨fun l' hl' => hf.1 l' (by simp [hl']), hpairs⟩
    obtain ⟨ht, hitems⟩ := resolveLink_items hstep
    rw [hitems]
    exact ⟨shares_step hown ht hs hnew, counts_step hown ht hs hnew hc⟩

def OneLink (x : Leaf) : Prop := ∀ i, item x = some i → i.nLinks = 1

theorem oneLink_default : Dir.default.toTree.All OneLink fun _ => True := by
  refine ⟨trivial, ?_, ?_, trivial⟩
  · intro i hi
    cases hi
  · intro i hi
    cases hi

def CountedOnce (d : Dir Leaf DirInfo) : Prop := d.toTree.All OneLink fun _ => True

theorem onRoot_counted {act : EStateM Error (Dir Leaf DirInfo) Unit}
    (h : ∀ d, CountedOnce d → CountedOnce (stateAfter (act d))) :
    Triple (fun b => CountedOnce b.root) (onRoot act) (fun _ b => CountedOnce b.root)
      (fun _ b => CountedOnce b.root) := by
  intro b hb
  have hd := h b.root hb
  unfold onRoot
  cases ha : act b.root with
  | ok a root =>
    rw [ha] at hd
    exact hd
  | error e root =>
    rw [ha] at hd
    exact hd

theorem addLeaf_counted {path : Bytes} {x : Leaf} (hx : OneLink x) :
    Triple (fun b => CountedOnce b.root) (onRoot (addLeaf Dir.default path x))
      (fun _ b => CountedOnce b.root) (fun _ b => CountedOnce b.root) :=
  onRoot_counted fun _ hd => addLeaf_all oneLink_default hx hd

/-- Whatever is added is added with a count of one, and links wait. -/
theorem call_counted (c : Call) :
    Triple (fun b => CountedOnce b.root) c.run (fun _ b => CountedOnce b.root)
      (fun _ b => CountedOnce b.root) := by
  have hkeep : ∀ {α : Type} {x : EStateM Error Builder α}, Keeps Builder.root x →
      Triple (fun b => CountedOnce b.root) x (fun _ b => CountedOnce b.root)
        (fun _ b => CountedOnce b.root) := fun hk => triple_of_keeps hk CountedOnce
  cases c with
  | addFile path metadata len contents =>
    refine triple_bind (hkeep keeps_get) fun _ => ?_
    refine triple_bind (hkeep (keeps_require _ _)) fun _ => ?_
    refine triple_bind (hkeep (startBlockFor_keeps _)) fun _ => ?_
    refine triple_bind (hkeep (copyBlocks_keeps (fun _ _ _ _ => rfl) _ _ _)) fun _ => ?_
    refine triple_bind (hkeep (keeps_check _)) fun _ => ?_
    refine triple_bind (hkeep (hookMeta_keeps _)) fun _ => addLeaf_counted ?_
    intro i hi
    cases hi
    rfl
  | addSymlink path link metadata =>
    refine triple_bind (hkeep (startBlockFor_keeps _)) fun _ => ?_
    refine triple_bind (hkeep (writeBlocks_keeps (fun _ _ _ _ => rfl) _ _ _)) fun _ => ?_
    refine triple_bind (hkeep (hookMeta_keeps _)) fun _ => addLeaf_counted ?_
    intro i hi
    cases hi
    rfl
  | upsertDir path metadata =>
    refine triple_bind (hkeep (hookMeta_keeps _)) fun _ => onRoot_counted ?_
    exact fun _ hd => upsertDir_all oneLink_default hd
  | addLink path target metadata => exact hkeep (keeps_modify fun _ => rfl)

theorem after_counted {b : Builder} (h : CountedOnce b.root) (calls : List Call) :
    CountedOnce (after b calls).root := by
  induction calls generalizing b with
  | nil => exact h
  | cons c cs ih => exact ih (stateAfter_of_keeping (call_counted c) h)

end Runs

section Agreement

/-- Every link is an entry of the same kind with the same data as its target. -/
def LinksAgree (links : List Link) (m : Items) : Prop :=
  ∀ l ∈ links, ∃ i j, m (pathNames l.1) = some i ∧ m (pathNames l.2.1) = some j ∧
    i.fileType = j.fileType ∧ SameData i j

def CountsAgree (links : List Link) (m : Items) : Prop :=
  ∀ q i, m q = some i → i.nLinks.toNat = (namesOf links m (origin links q)).ncard

variable {m₀ m : Items} {links : List Link}

theorem SameData.trans_symm {i j k : Item} (h : SameData i k) (h' : SameData j k) : SameData i j :=
  ⟨h.1.trans h'.1.symm, h.2.1.trans h'.2.1.symm, h.2.2.trans h'.2.2.symm⟩

theorem linksAgree_iff (hs : Shares m₀ links m) :
    LinksAgree links m ↔
      ∀ l ∈ links, ∀ i, m₀ (origin links (pathNames l.1)) = some i → i.fileType = .regularFile := by
  constructor
  · intro h l hl i₀ h₀
    -- some link of the file has the name it was added under as its target
    obtain ⟨ho, -, l', hl', htarget⟩ := hs.sources _ (mem_sources hl)
    obtain ⟨i, j, hi, hj, hty, -⟩ := h l' hl'
    obtain ⟨i', hi', hreg⟩ := hs.paths l' hl'
    obtain ⟨j₀, hj₀, -, -, hty'⟩ := hs.behind _ _ hj
    rw [htarget, ho, h₀, Option.some.injEq] at hj₀
    rw [htarget] at hty'
    rw [hi', Option.some.injEq] at hi
    rw [hj₀, ← hty' ho, ← hty, ← hi, hreg]
  · intro h l hl
    obtain ⟨i, hi, hreg⟩ := hs.paths l hl
    obtain ⟨hsome, ho⟩ := hs.targets l hl
    obtain ⟨j, hj⟩ := Option.isSome_iff_exists.mp hsome
    obtain ⟨i₀, h₀, hsi, -⟩ := hs.behind _ _ hi
    obtain ⟨j₀, h₀', hsj, htj, -⟩ := hs.behind _ _ hj
    have hi₀ := h l hl i₀ h₀
    rw [← ho, h₀, Option.some.injEq] at h₀'
    subst h₀'
    refine ⟨i, j, hi, hj, ?_, hsi.trans_symm hsj⟩
    rw [hreg]
    exact (htj.elim id fun h => h.trans hi₀).symm

theorem countsAgree_iff (hc : Counts links m) : CountsAgree links m ↔ (sources links).Nodup := by
  rw [List.nodup_iff_count_le_one]
  constructor
  · intro h r
    by_contra hr
    obtain ⟨q, i, hq, ho, hi⟩ := hc.more r (by omega)
    have hn := h q i hq
    rw [hi, hc.size q (by simp [hq]), ho] at hn
    have htwo : (2 : UInt32).toNat = 2 := rfl
    omega
  · intro h q i hq
    rw [hc.size q (by simp [hq])]
    rcases Nat.le_one_iff_eq_zero_or_eq_one.mp (h (origin links q)) with h0 | h1
    · rw [hc.alone q i hq h0, h0]
      rfl
    · rw [hc.pair q i hq h1, h1]
      rfl

/-- After `resolve_links` the names of each file agree in kind, data and
count if no link leads to a symlink and no two links to one file. -/
theorem resolved_names_iff (config : BuilderConfig) (calls : List Call) (b b' : Builder)
    (hb : after (Builder.new config) calls = b) (h : resolveLinks b = .ok () b')
    (hadd : Additive (calls.filterMap linkOf)) :
    let links := calls.filterMap linkOf
    LinksAgree links (itemAt b'.root) ∧ CountsAgree links (itemAt b'.root) ↔
      (∀ l ∈ links, ∀ i, itemAt b.root (origin links (pathNames l.1)) = some i →
        i.fileType = .regularFile) ∧ (sources links).Nodup := by
  intro links
  obtain ⟨root, hrun, rfl⟩ := resolveLinks_ok h
  have hlinks : b.links = links := by
    rw [← hb, after_links]
    rfl
  rw [hlinks] at hrun
  have hnew : CountedOnce (Builder.new config).root := oneLink_default
  have hcounted : CountedOnce b.root := hb ▸ after_counted hnew calls
  have hone : ∀ q i, itemAt b.root q = some i → i.nLinks = 1 := by
    intro q i hi
    obtain ⟨v, hv, hi⟩ := Option.bind_eq_some_iff.mp hi
    obtain ⟨x, hx, hi⟩ := Option.bind_eq_some_iff.mp hi
    cases v with
    | inl y =>
      cases hx
      exact all_nodeAt hcounted hv i hi
    | inr info => cases hx
  obtain ⟨hs, hc⟩ := run_resolved hrun hadd hone
  rw [linksAgree_iff hs, countsAgree_iff hc]

def linkTo (path target : Bytes) : Call := .addLink path target Meta.default

def resolvedItems (calls : List Call) : Items :=
  itemAt (stateAfter (resolveLinks (after unlimited calls))).root

/-- The link takes the place of a file that was added under its path. -/
def replacedByLink : List Call := [emptyFile [0x78], emptyFile [0x79], linkTo [0x79] [0x78]]

theorem resolved_names_replaced : ∃ b', resolveLinks (after unlimited replacedByLink) = .ok () b' ∧
    LinksAgree (replacedByLink.filterMap linkOf) (itemAt b'.root) ∧
      CountsAgree (replacedByLink.filterMap linkOf) (itemAt b'.root) := by
  have hok : result (resolveLinks (after unlimited replacedByLink)) = .ok () := by decide +kernel
  have hkind : (itemAt (after unlimited replacedByLink).root [[0x78]]).map (·.fileType) =
      some .regularFile := by decide +kernel
  refine ⟨_, ok_of_result hok, ?_⟩
  apply (resolved_names_iff ⟨none, none⟩ _ _ _ rfl (ok_of_result hok) (by decide)).mpr
  refine ⟨?_, List.nodup_singleton _⟩
  intro l hl i hi
  cases List.mem_singleton.mp hl
  have hi' : itemAt (after unlimited replacedByLink).root [[0x78]] = some i := hi
  rw [hi'] at hkind
  exact Option.some.inj hkind

def linkedSymlink : List Call := [.addSymlink [0x73] [0x78] Meta.default, linkTo [0x79] [0x73]]

def threeNames : List Call := [emptyFile [0x78], linkTo [0x79] [0x78], linkTo [0x7a] [0x78]]

/-- A link to a symlink is a regular file, and of three names of one file the
first has a count of three and the second a count of two. -/
theorem names_disagree :
    (∃ b', resolveLinks (after unlimited linkedSymlink) = .ok () b' ∧
      ¬ LinksAgree (linkedSymlink.filterMap linkOf) (itemAt b'.root)) ∧
    ∃ b', resolveLinks (after unlimited threeNames) = .ok () b' ∧
      ¬ CountsAgree (threeNames.filterMap linkOf) (itemAt b'.root) := by
  constructor
  · have hok : result (resolveLinks (after unlimited linkedSymlink)) = .ok () := by decide +kernel
    have hkinds : (resolvedItems linkedSymlink [[0x79]]).map (·.fileType) ≠
        (resolvedItems linkedSymlink [[0x73]]).map (·.fileType) := by decide +kernel
    refine ⟨_, ok_of_result hok, ?_⟩
    intro h
    obtain ⟨i, j, hi, hj, hty, -⟩ := h _ (List.mem_singleton_self _)
    have hi' : resolvedItems linkedSymlink [[0x79]] = some i := hi
    have hj' : resolvedItems linkedSymlink [[0x73]] = some j := hj
    apply hkinds
    rw [hi', hj', Option.map_some, Option.map_some, hty]
  · have hok : result (resolveLinks (after unlimited threeNames)) = .ok () := by decide +kernel
    have hx : (resolvedItems threeNames [[0x78]]).map (·.nLinks) = some 3 := by decide +kernel
    have hy : (resolvedItems threeNames [[0x79]]).map (·.nLinks) = some 2 := by decide +kernel
    refine ⟨_, ok_of_result hok, ?_⟩
    intro h
    obtain ⟨i, hi, hni⟩ := Option.map_eq_some_iff.mp hx
    obtain ⟨j, hj, hnj⟩ := Option.map_eq_some_iff.mp hy
    -- both names have the same origin, so one number would have to be both counts
    have hsame : i.nLinks.toNat = j.nLinks.toNat := (h _ i hi).trans (h _ j hj).symm
    rw [hni, hnj] at hsame
    exact absurd hsame (by decide)

end Agreement

end ProgramExplorer.ErofsLinkCounts
