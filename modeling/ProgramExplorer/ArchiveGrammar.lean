import ProgramExplorer.ArchiveToDir

/-!
# What `unpack_visitor` accepts

The grammar of the format against the decoder, and the path that the decoder
keeps against the directories that are open. The decoder does not look at the
first byte of a name, and it keeps its stack of names in a `PathBuf`, which
takes slashes and dots in a name for more than part of a name.
-/

set_option autoImplicit false

namespace ProgramExplorer.ArchiveGrammar
open ByteStrings LittleEndian UnixPath InputLoop ArchiveFormat ArchivePack ArchiveUnpack
open ArchiveToDir

section Grammar

structure Name (name : Bytes) : Prop where
  nonempty : name ≠ []
  short : name.length ≤ 255
  noNul : (0 : UInt8) ∉ name

inductive Archive : ℕ → Bytes → Prop
  | done : Archive 0 []
  | file {depth : ℕ} {name data rest : Bytes} (hname : Name name) (hdata : data.length < 2 ^ 32)
      (hrest : Archive depth rest) :
      Archive depth (1 :: (name ++ 0 :: (u32 (UInt32.ofNat data.length) ++ (data ++ rest))))
  | dir {depth : ℕ} {name rest : Bytes} (hname : Name name) (hrest : Archive (depth + 1) rest) :
      Archive depth (2 :: (name ++ 0 :: rest))
  | pop {depth : ℕ} {rest : Bytes} (hrest : Archive depth rest) : Archive (depth + 1) (3 :: rest)

def WellFormed : Message → Prop
  | .file name data => Name name ∧ data.length < 2 ^ 32
  | .dir name => Name name
  | .pop => True

theorem archive_iff {depth : ℕ} {data : Bytes} :
    Archive depth data ↔
      ∃ ms, data = encodeAll ms ∧ depthAfter ms depth = some 0 ∧ ∀ m ∈ ms, WellFormed m := by
  constructor
  · intro h
    induction h with
    | done => exact ⟨[], rfl, rfl, by simp⟩
    | @file depth name data rest hname hdata _ ih =>
      obtain ⟨ms, rfl, hdepth, hms⟩ := ih
      refine ⟨.file name data :: ms, ?_, hdepth, by simpa using ⟨⟨hname, hdata⟩, hms⟩⟩
      simp [Message.encode, Message.tag, Message.body, ArchiveFormat1Tag.toByte]
    | @dir depth name rest hname _ ih =>
      obtain ⟨ms, rfl, hdepth, hms⟩ := ih
      refine ⟨.dir name :: ms, ?_, hdepth, by simpa using ⟨hname, hms⟩⟩
      simp [Message.encode, Message.tag, Message.body, ArchiveFormat1Tag.toByte]
    | pop _ ih =>
      obtain ⟨ms, rfl, hdepth, hms⟩ := ih
      exact ⟨.pop :: ms, rfl, hdepth, by simpa using ⟨trivial, hms⟩⟩
  · rintro ⟨ms, rfl, hdepth, hms⟩
    induction ms generalizing depth with
    | nil =>
      cases hdepth
      exact .done
    | cons m ms ih =>
      have hrest := fun depth' h => @ih depth' h fun m' hm => hms m' (List.mem_cons_of_mem m hm)
      have hm := hms m List.mem_cons_self
      cases m with
      | file name data =>
        have h := Archive.file hm.1 hm.2 (hrest depth hdepth)
        simpa [Message.encode, Message.tag, Message.body, ArchiveFormat1Tag.toByte] using h
      | dir name =>
        have h := Archive.dir hm (hrest (depth + 1) hdepth)
        simpa [Message.encode, Message.tag, Message.body, ArchiveFormat1Tag.toByte] using h
      | pop =>
        cases depth with
        | zero => cases hdepth
        | succ depth => exact .pop (hrest depth hdepth)

variable {σ : Type} (onFile : Bytes → Bytes → σ → σ)

structure Accepted (data : Bytes) (ms : List Message) : Prop where
  bytes : data = encodeAll ms
  balanced : depthAfter ms 0 = some 0
  readable : ∀ m ∈ ms, m.Readable

theorem unpackVisitor_ok_iff (data : Bytes) (s : σ) :
    (∃ s', unpackVisitor (continuing onFile) data s = .ok () s') ↔ ∃ ms, Accepted data ms := by
  have hreads := messages_reads data
  rw [unpackVisitor_eq _ hreads, visitMessages_ok_iff]
  constructor
  · rintro ⟨hend, hdepth⟩
    rw [hend, reads_end_iff] at hreads
    exact ⟨_, hreads.1, hdepth, hreads.2⟩
  · rintro ⟨ms, hbytes, hdepth, hms⟩
    rw [messages_eq (reads_end_iff.mpr ⟨hbytes, hms⟩)]
    exact ⟨rfl, hdepth⟩

theorem Accepted.unique {data : Bytes} {ms ms' : List Message} (h : Accepted data ms)
    (h' : Accepted data ms') : ms = ms' :=
  ((reads_end_iff.mpr ⟨h.bytes, h.readable⟩).unique (reads_end_iff.mpr ⟨h'.bytes, h'.readable⟩)).1

theorem readable_of_wellFormed {m : Message} (h : WellFormed m) : m.Readable := by
  have hread {name : Bytes} (hn : Name name) : ReadName name :=
    ⟨hn.nonempty, hn.short, fun h0 => hn.noNul (List.mem_of_mem_tail h0)⟩
  cases m with
  | file name data => exact ⟨hread h.1, h.2⟩
  | dir name => exact hread h
  | pop => trivial

theorem wellFormed_iff {m : Message} (h : m.Readable) : WellFormed m ↔ m.name.head? ≠ some 0 := by
  have hname {name : Bytes} (hn : ReadName name) : Name name ↔ name.head? ≠ some 0 := by
    obtain ⟨c, cs, rfl⟩ := List.exists_cons_of_ne_nil hn.nonempty
    have hcs : (0 : UInt8) ∉ cs := hn.noNul
    constructor
    · rintro hok hc
      exact hok.noNul (List.mem_cons.mpr (.inl (Option.some.inj hc).symm))
    · intro hc
      refine ⟨hn.nonempty, hn.short, ?_⟩
      rw [List.mem_cons, not_or]
      exact ⟨fun h0 => hc (by rw [← h0]; rfl), hcs⟩
  cases m with
  | file name data => exact (and_iff_left h.2).trans (hname h.1)
  | dir name => exact hname h
  | pop => simp [WellFormed, Message.name]

/-- The decoder takes exactly the archives of the format, but for those with a
name that starts with NUL, which it takes as well. -/
theorem accepts_grammar_iff (data : Bytes) (s : σ) :
    ((∃ s', unpackVisitor (continuing onFile) data s = .ok () s') ↔ Archive 0 data) ↔
      ¬ ∃ ms, Accepted data ms ∧ ∃ m ∈ ms, m.name.head? = some 0 := by
  rw [unpackVisitor_ok_iff, archive_iff]
  constructor
  · rintro hiff ⟨ms, hms, m, hm, hnul⟩
    obtain ⟨ms', hbytes, hdepth, hwell⟩ := hiff.mp ⟨ms, hms⟩
    have hsame := hms.unique ⟨hbytes, hdepth, fun m hm => readable_of_wellFormed (hwell m hm)⟩
    subst hsame
    exact (wellFormed_iff (hms.readable m hm)).mp (hwell m hm) hnul
  · intro hno
    constructor
    · rintro ⟨ms, hms⟩
      refine ⟨ms, hms.bytes, hms.balanced, fun m hm => ?_⟩
      exact (wellFormed_iff (hms.readable m hm)).mpr fun hnul => hno ⟨ms, hms, m, hm, hnul⟩
    · rintro ⟨ms, hbytes, hdepth, hwell⟩
      exact ⟨ms, hbytes, hdepth, fun m hm => readable_of_wellFormed (hwell m hm)⟩

def nulFirst : Bytes := [1, 0, 97, 0, 0, 0, 0, 0]

theorem nul_name_accepted :
    unpackVisitor recorder nulFirst [] = .ok () [([0, 97], [])] ∧ ¬ Archive 0 nulFirst := by
  have hname : ReadName [0, 97] := ⟨by simp, by decide, by decide⟩
  have hnul : Accepted nulFirst [.file [0, 97] []] :=
    ⟨rfl, rfl, by simpa [Message.Readable] using hname⟩
  refine ⟨rfl, fun h => ?_⟩
  obtain ⟨ms, hbytes, hdepth, hwell⟩ := archive_iff.mp h
  obtain rfl := hnul.unique ⟨hbytes, hdepth, fun m hm => readable_of_wellFormed (hwell m hm)⟩
  exact (hwell _ List.mem_cons_self).1.noNul (by simp)

end Grammar

section Stack

variable {σ : Type} (v : UnpackVisitor σ)

def enter (dirs : List Bytes) : Message → List Bytes
  | .file _ _ => dirs
  | .dir name => dirs ++ [name]
  | .pop => dirs.dropLast

def openDirs (ms : List Message) : List Bytes := ms.foldl enter []

@[simp] theorem openDirs_concat (ms : List Message) (m : Message) :
    openDirs (ms ++ [m]) = enter (openDirs ms) m := by
  simp [openDirs]

def next (s : Unpacking σ) : Option Message := (messages s.cur).1.head?

inductive Processed (data : Bytes) (visitor : σ) : List Message → Unpacking σ → Prop
  | start : Processed data visitor [] ⟨data, [], 0, visitor⟩
  | more {ms : List Message} {m : Message} {s s' : Unpacking σ} (h : Processed data visitor ms s)
      (hnext : next s = some m) (hstep : unpackStep v s = .again s') :
      Processed data visitor (ms ++ [m]) s'

/-- The path that a file comes with is made of the names of the open
directories and its own, and the path between two messages of as many
components as directories are open. -/
structure PathStack (data : Bytes) (visitor : σ) : Prop where
  onFile : ∀ ms s name contents, Processed v data visitor ms s → next s = some (.file name contents) →
    texts (push s.path name) = openDirs ms ++ [name]
  depth : ∀ ms s, Processed v data visitor ms s → (components s.path).length = s.depth

theorem messages_cons {tag : UInt8} {cur rest : Bytes} {m : Message}
    (h : readMessage tag cur = .ok (m, rest)) :
    messages (tag :: cur) = (m :: (messages rest).1, (messages rest).2) :=
  messages_eq (.cons h (messages_reads rest))

theorem messages_encodeAll {ms : List Message} (h : ∀ m ∈ ms, m.Readable) :
    messages (encodeAll ms) = (ms, none) := messages_eq (reads_end_iff.mpr ⟨rfl, h⟩)

variable {v}

theorem next_eq_some {s : Unpacking σ} {m : Message} (h : next s = some m) :
    ∃ tag cur rest, s.cur = tag :: cur ∧ readMessage tag cur = .ok (m, rest) ∧
      (messages s.cur).1 = m :: (messages rest).1 ∧
      unpackStep v s = onMessage v m ⟨rest, s.path, s.depth, s.visitor⟩ := by
  obtain ⟨cur, path, depth, visitor⟩ := s
  cases cur with
  | nil => cases h
  | cons tag cur =>
    cases hread : readMessage tag cur with
    | error e =>
      have hbad : messages (tag :: cur) = ([], some e) := messages_eq (.bad hread)
      rw [next, hbad] at h
      cases h
    | ok r =>
      obtain ⟨m', rest⟩ := r
      have hcons := messages_cons hread
      rw [next, hcons] at h
      cases h
      refine ⟨tag, cur, rest, rfl, hread, by rw [hcons], ?_⟩
      rw [unpackStep_cons, hread]

theorem again_cases {s s' : Unpacking σ} {m : Message} (hnext : next s = some m)
    (hstep : unpackStep v s = .again s') :
    (messages s.cur).1 = m :: (messages s'.cur).1 ∧
      match m with
      | .file name _ => s'.path = pop (push s.path name) ∧ s'.depth = s.depth
      | .dir name => s'.path = push s.path name ∧ s'.depth = s.depth + 1
      | .pop => s.depth ≠ 0 ∧ s'.path = pop s.path ∧ s'.depth = s.depth - 1 := by
  obtain ⟨_, _, rest, -, -, hmessages, heq⟩ := next_eq_some (v := v) hnext
  rw [heq] at hstep
  have hcur := onMessage_cur v hstep
  refine ⟨by rw [hmessages, hcur], ?_⟩
  cases m with
  | file name contents =>
    simp only [onMessage] at hstep
    split at hstep <;> cases hstep
    exact ⟨rfl, rfl⟩
  | dir name =>
    cases hstep
    exact ⟨rfl, rfl⟩
  | pop =>
    simp only [onMessage] at hstep
    split_ifs at hstep with h0
    cases hstep
    exact ⟨h0, rfl, rfl⟩

theorem processed_messages {data : Bytes} {visitor : σ} {ms : List Message} {s : Unpacking σ}
    (h : Processed v data visitor ms s) : (messages data).1 = ms ++ (messages s.cur).1 := by
  induction h with
  | start => rfl
  | more _ hnext hstep ih =>
    rw [ih, (again_cases hnext hstep).1]
    simp

/-- With names that are one component each, the path is that of the open
directories. -/
theorem processed_path {data : Bytes} {visitor : σ} {ms : List Message} {s : Unpacking σ}
    (h : Processed v data visitor ms s) (hms : ∀ m ∈ ms, Named SegmentName m) :
    s.path = joined (openDirs ms) ∧ s.depth = (openDirs ms).length ∧
      ∀ n ∈ openDirs ms, SegmentName n := by
  induction h with
  | start => exact ⟨rfl, rfl, by simp [openDirs]⟩
  | @more ms m s s' _ hnext hstep ih =>
    obtain ⟨hpath, hdepth, hnames⟩ := ih fun m' hm => hms m' (List.mem_append_left _ hm)
    have hm : Named SegmentName m := hms m (by simp)
    have hcases := (again_cases hnext hstep).2
    rw [openDirs_concat]
    cases m with
    | file name contents =>
      have hall : ∀ n ∈ openDirs ms ++ [name], SegmentName n := by
        simpa [or_imp, forall_and] using ⟨hnames, hm⟩
      refine ⟨?_, hcases.2.trans hdepth, hnames⟩
      rw [hcases.1, hpath, push_segments hnames hm, pop_segments hall]
      rfl
    | dir name =>
      refine ⟨?_, ?_, by simpa [enter, or_imp, forall_and] using ⟨hnames, hm⟩⟩
      · rw [hcases.1, hpath, push_segments hnames hm]
        rfl
      · rw [hcases.2, hdepth, enter, List.length_append, List.length_singleton]
    | pop =>
      obtain ⟨h0, hpop, hless⟩ := hcases
      rcases List.eq_nil_or_concat (openDirs ms) with hnil | ⟨dirs, n, hconcat⟩
      · rw [hnil] at hdepth
        exact absurd hdepth h0
      · rw [List.concat_eq_append] at hconcat
        rw [hconcat] at hpath hdepth hnames ⊢
        simp only [enter, List.dropLast_concat]
        refine ⟨?_, ?_, fun n' hn => hnames n' (List.mem_append_left _ hn)⟩
        · rw [hpop, hpath, pop_segments hnames]
        · rw [hless, hdepth, List.length_append, List.length_singleton, Nat.add_sub_cancel]

theorem pathStack_of_segments {data : Bytes} {visitor : σ}
    (hms : ∀ m ∈ (messages data).1, Named SegmentName m) : PathStack v data visitor := by
  have hpart {ms : List Message} {s : Unpacking σ} (h : Processed v data visitor ms s) :
      ∀ m ∈ ms, Named SegmentName m := by
    intro m hm
    refine hms m ?_
    rw [processed_messages h]
    exact List.mem_append_left _ hm
  constructor
  · intro ms s name contents h hnext
    obtain ⟨hpath, -, hnames⟩ := processed_path h (hpart h)
    have hname : SegmentName name := by
      refine hms (.file name contents) ?_
      rw [processed_messages h]
      exact List.mem_append_right _ (List.mem_of_head? hnext)
    rw [hpath, push_segments hnames hname, texts_segments]
    simpa [or_imp, forall_and] using ⟨hnames, hname⟩
  · intro ms s h
    obtain ⟨hpath, hdepth, hnames⟩ := processed_path h (hpart h)
    rw [hpath, components_segments hnames, List.length_map, hdepth]

theorem segments_of_named {N : Set Bytes} {data : Bytes} (hin : ∀ m ∈ (messages data).1, Named (· ∈ N) m)
    (hN : ∀ name ∈ N, ReadName name → slash ∉ name ∧ name ≠ [dot]) :
    ∀ m ∈ (messages data).1, Named SegmentName m := by
  intro m hm
  have hmem := hin m hm
  have hread := reads_readable (messages_reads data) m hm
  have hname {name : Bytes} (hn : ReadName name) (hmem : name ∈ N) : SegmentName name :=
    ⟨hn.nonempty, (hN name hmem hn).1, (hN name hmem hn).2⟩
  cases m with
  | file name contents => exact hname hread.1 hmem
  | dir name => exact hname hread hmem
  | pop => trivial

theorem root_not_pathStack (visitor : σ) : ¬ PathStack v (encodeAll [.dir [slash], .pop]) visitor := by
  intro h
  have hdir : Processed v (encodeAll [.dir [slash], .pop]) visitor [.dir [slash]] ⟨[3], [slash], 1, visitor⟩ :=
    .more .start rfl rfl
  have hpop : Processed v (encodeAll [.dir [slash], .pop]) visitor [.dir [slash], .pop]
      ⟨[], [slash], 0, visitor⟩ := .more hdir rfl rfl
  exact absurd (show (components [slash]).length = 0 from h.depth _ _ hpop) (by decide)

theorem dot_not_pathStack (visitor : σ) : ¬ PathStack v (encodeAll [.dir [dot], .dir [dot]]) visitor := by
  intro h
  have hdir : Processed v (encodeAll [.dir [dot], .dir [dot]]) visitor [.dir [dot]]
      ⟨[2, dot, 0], [dot], 1, visitor⟩ := .more .start rfl rfl
  have hdirs : Processed v (encodeAll [.dir [dot], .dir [dot]]) visitor [.dir [dot], .dir [dot]]
      ⟨[], [dot, slash, dot], 2, visitor⟩ := .more hdir rfl rfl
  exact absurd (show (components [dot, slash, dot]).length = 2 from h.depth _ _ hdirs) (by decide)

theorem slash_not_pathStack {name : Bytes} (hname : ReadName name) (hslash : slash ∈ name)
    (hne : name ≠ [slash]) (visitor : σ) : ¬ PathStack v (encodeAll [.file name []]) visitor := by
  intro h
  have hmessages := @messages_encodeAll [.file name []] (by simpa [Message.Readable] using hname)
  have htexts := h.onFile [] _ name [] .start (by rw [next, hmessages]; rfl)
  have hmem : name ∈ texts (push [] name) := by
    rw [htexts]
    simp [openDirs]
  exact hne (text_noSlash hmem hslash)

/-- The names with which the path is right in every archive: those without a
slash, other than `.`. -/
theorem path_stack_iff (v : UnpackVisitor σ) (visitor : σ) (N : Set Bytes) :
    (∀ data, (∀ m ∈ (messages data).1, Named (· ∈ N) m) → PathStack v data visitor) ↔
      ∀ name ∈ N, ReadName name → slash ∉ name ∧ name ≠ [dot] := by
  constructor
  · intro h name hmem hname
    -- each archive below is made of this one name
    have hin {ms : List Message} (hread : ∀ m ∈ ms, m.Readable) (hms : ∀ m ∈ ms, Named (· = name) m) :
        PathStack v (encodeAll ms) visitor := by
      refine h _ ?_
      rw [messages_encodeAll hread]
      exact fun m hm => (hms m hm).imp fun n hn => hn ▸ hmem
    constructor
    · intro hslash
      by_cases hroot : name = [slash]
      · subst hroot
        refine root_not_pathStack visitor (hin ?_ ?_)
        · simpa [Message.Readable] using hname
        · simp [Named]
      · refine slash_not_pathStack hname hslash hroot visitor (hin ?_ ?_)
        · simpa [Message.Readable] using hname
        · simp [Named]
    · rintro rfl
      refine dot_not_pathStack visitor (hin ?_ ?_)
      · simpa [Message.Readable] using hname
      · simp [Named]
  · intro hN data hin
    exact pathStack_of_segments (segments_of_named hin hN)

def slashName : Bytes := encodeAll [.file [97, slash, 98] [], .file [99] []]

/-- The first file leaves `a` in the path, and the second comes as `a/c`. -/
theorem slash_name_misplaced :
    unpackVisitor recorder slashName [] = .ok () [([97, slash, 98], []), ([97, slash, 99], [])] ∧
      ¬ PathStack recorder slashName [] := by
  refine ⟨rfl, fun h => ?_⟩
  have hfile : Processed recorder slashName [] [.file [97, slash, 98] []]
      ⟨encodeAll [.file [99] []], [97], 0, [([97, slash, 98], [])]⟩ := .more .start rfl rfl
  exact absurd (show (components [97]).length = 0 from h.depth _ _ hfile) (by decide)

end Stack

end ProgramExplorer.ArchiveGrammar
