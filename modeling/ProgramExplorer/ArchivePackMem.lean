import ProgramExplorer.ArchiveGrammar
import ProgramExplorer.Utf8

/-!
# Archives packed in memory

`PackMemToVec` gets names and contents from its caller. It checks the depth and
the size of a file and nothing about a name, while the decoder has its own
rules for names, and its path yet others.
-/

set_option autoImplicit false

namespace ProgramExplorer.ArchivePackMem
open ByteStrings ByteStore BufferedWriter LittleEndian StateRules UnixPath ArchiveFormat
open ArchivePack ArchiveUnpack ArchiveToDir ArchiveGrammar

section Packer

abbrev PackMemToWriter := PackFsToWriter

def packFile (name : List Char) (data : Bytes) : EStateM Error PackMemToWriter Unit := do
  require (data.length < 2 ^ 32) .write
  writeAll [ArchiveFormat1Tag.file.toByte]
  writeAll (Utf8.encode name)
  writeAll [0]
  writeAll (u32 (UInt32.ofNat data.length))
  writeAll data

def packDir (name : List Char) : EStateM Error PackMemToWriter Unit := do
  let p ← get
  require (¬ p.depth > maxDirDepth) .dirTooDeep
  modify fun p => { p with depth := p.depth + 1 }
  writeAll [ArchiveFormat1Tag.dir.toByte]
  writeAll (Utf8.encode name)
  writeAll [0]

def packPop : EStateM Error PackMemToWriter Unit := packLeaveDir

def withVec (v : Bytes) : PackMemToWriter := ⟨.new ⟨v, v.length⟩, 0⟩

def newVec : PackMemToWriter := withVec []

def intoVec (p : PackMemToWriter) : Bytes := p.writer.intoInner.data

inductive Call where
  | file (name : List Char) (data : Bytes)
  | dir (name : List Char)
  | pop
  deriving DecidableEq

def Call.run : Call → EStateM Error PackMemToWriter Unit
  | .file name data => packFile name data
  | .dir name => packDir name
  | .pop => packPop

def Call.message : Call → Message
  | .file name data => .file (Utf8.encode name) data
  | .dir name => .dir (Utf8.encode name)
  | .pop => .pop

end Packer

section Bytes

theorem packFile_wrote (name : List Char) {data : Bytes} (hdata : data.length < 2 ^ 32)
    (p : PackMemToWriter) :
    ∃ p', packFile name data p = .ok () p' ∧
      Wrote p (Message.file (Utf8.encode name) data).encode p' := by
  simp only [packFile, bind, EStateM.bind, require, if_pos hdata, writeAll, modify_run]
  refine ⟨_, rfl, rfl, ?_⟩
  simp [Message.encode, Message.tag, Message.body, Writer.writeAll_append]

theorem packDir_wrote (name : List Char) {p : PackMemToWriter} (hdepth : p.depth ≤ maxDirDepth) :
    ∃ p', packDir name p = .ok () p' ∧
      Wrote { p with depth := p.depth + 1 } (Message.dir (Utf8.encode name)).encode p' := by
  simp only [packDir, bind, EStateM.bind, get_run, require,
    gt_iff_lt, not_lt, if_pos hdepth, writeAll, modify_run]
  refine ⟨_, rfl, rfl, ?_⟩
  simp [Message.encode, Message.tag, Message.body, Writer.writeAll_append]

theorem packFile_ok {name : List Char} {data : Bytes} {p p' : PackMemToWriter}
    (h : packFile name data p = .ok () p') :
    data.length < 2 ^ 32 ∧ Wrote p (Message.file (Utf8.encode name) data).encode p' := by
  by_cases hdata : data.length < 2 ^ 32
  · obtain ⟨q, hq, hw⟩ := packFile_wrote name hdata p
    cases hq.symm.trans h
    exact ⟨hdata, hw⟩
  · simp only [packFile, bind, EStateM.bind, require, if_neg hdata] at h
    cases h

theorem packDir_ok {name : List Char} {p p' : PackMemToWriter} (h : packDir name p = .ok () p') :
    Wrote { p with depth := p.depth + 1 } (Message.dir (Utf8.encode name)).encode p' := by
  by_cases hdepth : p.depth ≤ maxDirDepth
  · obtain ⟨q, hq, hw⟩ := packDir_wrote name hdepth
    cases hq.symm.trans h
    exact hw
  · simp only [packDir, bind, EStateM.bind, get_run, require,
      gt_iff_lt, not_lt, if_neg hdepth] at h
    cases h

theorem packPop_ok {p p' : PackMemToWriter} (h : packPop p = .ok () p') :
    p.depth ≠ 0 ∧ Wrote { p with depth := p.depth - 1 } Message.pop.encode p' := by
  by_cases hdepth : p.depth = 0
  · simp only [packPop, packLeaveDir, bind, EStateM.bind, get_run,
      require, hdepth, not_true, if_false] at h
    cases h
  · obtain ⟨q, hq, hw⟩ := packLeaveDir_wrote hdepth
    cases hq.symm.trans h
    exact ⟨hdepth, hw⟩

theorem depthAfter_cons (m : Message) (ms : List Message) (depth : ℕ) :
    depthAfter (m :: ms) depth = (depthAfter [m] depth).bind (depthAfter ms) := by
  cases m with
  | file | dir => rfl
  | pop => cases depth <;> rfl

theorem run_ok {c : Call} {p p' : PackMemToWriter} (h : c.run p = .ok () p') :
    p'.writer.settled = p.writer.settled.writeAll c.message.encode ∧
      depthAfter [c.message] p.depth = some p'.depth ∧
      ∀ name data, c.message = .file name data → data.length < 2 ^ 32 := by
  cases c with
  | file name data =>
    obtain ⟨hdata, hw⟩ := packFile_ok h
    refine ⟨hw.settled, congrArg some hw.depth.symm, ?_⟩
    rintro _ _ ⟨⟩
    exact hdata
  | dir name =>
    have hw := packDir_ok h
    exact ⟨hw.settled, congrArg some hw.depth.symm, by rintro _ _ ⟨⟩⟩
  | pop =>
    obtain ⟨h0, hw⟩ := packPop_ok h
    refine ⟨hw.settled, ?_, by rintro _ _ ⟨⟩⟩
    obtain ⟨depth, hdepth⟩ := Nat.exists_eq_succ_of_ne_zero h0
    rw [hw.depth, hdepth]
    rfl

theorem runs_ok {calls : List Call} {p p' : PackMemToWriter} (h : calls.forM Call.run p = .ok () p') :
    p'.writer.settled = p.writer.settled.writeAll (encodeAll (calls.map Call.message)) ∧
      depthAfter (calls.map Call.message) p.depth = some p'.depth ∧
      ∀ name data, .file name data ∈ calls.map Call.message → data.length < 2 ^ 32 := by
  induction calls generalizing p with
  | nil =>
    cases h
    exact ⟨(writeAll_nil _).symm, rfl, by simp⟩
  | cons c calls ih =>
    obtain ⟨q, hc, hcalls⟩ := forM_cons_eq_ok.mp h
    obtain ⟨hbytes, hdepth, hsize⟩ := run_ok hc
    obtain ⟨hbytes', hdepth', hsize'⟩ := ih hcalls
    refine ⟨?_, ?_, ?_⟩
    · rw [hbytes', hbytes, List.map_cons, encodeAll_cons, Writer.writeAll_append]
    · rw [List.map_cons, depthAfter_cons, hdepth]
      exact hdepth'
    · intro name data hmem
      rw [List.map_cons, List.mem_cons] at hmem
      rcases hmem with hmem | hmem
      · exact hsize name data hmem.symm
      · exact hsize' name data hmem

theorem intoVec_eq {calls : List Call} {p : PackMemToWriter} (h : calls.forM Call.run newVec = .ok () p) :
    intoVec p = encodeAll (calls.map Call.message) := by
  rw [intoVec, intoInner_eq, (runs_ok h).1]
  exact overwrite_nil_zero _

end Bytes

section Unpacking

/-- The decoder reports the files that were packed, in order, at the names of
the directories they are in and their own. -/
def Unpacks (calls : List Call) (bytes : Bytes) : Prop :=
  ∃ reported, unpackVisitor recorder bytes [] = .ok () reported ∧
    (reported.map fun file => (texts file.1, file.2)) = filesOf (placed [] (calls.map Call.message))

structure PackName (name : Bytes) : Prop where
  read : ReadName name
  segment : SegmentName name

theorem visited_eq_some {σ : Type} {r : EStateM.Result Error σ Unit} {s : σ} (h : visited r = some s) :
    r = .ok () s := by
  cases r with
  | ok u s' =>
    cases h
    rfl
  | error e s' => cases h

theorem unpacks_of_names {calls : List Call} {p : PackMemToWriter}
    (hrun : calls.forM Call.run newVec = .ok () p) (hdepth : p.depth = 0)
    (hnames : ∀ m ∈ calls.map Call.message, Named PackName m) : Unpacks calls (intoVec p) := by
  obtain ⟨-, hbalanced, hsize⟩ := runs_ok hrun
  rw [hdepth] at hbalanced
  have hread : ∀ m ∈ calls.map Call.message, m.Readable := by
    intro m hm
    have hname := hnames m hm
    cases m with
    | file name data => exact ⟨hname.read, hsize name data hm⟩
    | dir name => exact hname.read
    | pop => trivial
  have hsegments : ∀ m ∈ calls.map Call.message, Named SegmentName m :=
    fun m hm => (hnames m hm).imp fun _ h => h.segment
  have hvisit := visitMessages_segments (fun path data calls => calls ++ [(path, data)]) none _ hsegments []
    (by simp) []
  rw [if_pos ⟨rfl, hbalanced⟩, visitFiles_recorder, List.nil_append] at hvisit
  refine ⟨(filesOf (placed [] (calls.map Call.message))).map fun file => (joined file.1, file.2), ?_, ?_⟩
  · rw [intoVec_eq hrun, unpackVisitor_eq _ (reads_end_iff.mpr ⟨rfl, hread⟩)]
    exact visited_eq_some hvisit
  · have hfiles : ∀ file ∈ filesOf (placed [] (calls.map Call.message)), ∀ n ∈ file.1, SegmentName n :=
      filesOf_named (placed_named hsegments (by simp))
    rw [List.map_map]
    conv_rhs => rw [← List.map_id (filesOf (placed [] (calls.map Call.message)))]
    refine List.map_congr_left fun file hfile => ?_
    simp only [Function.comp_apply, texts_segments (hfiles file hfile), id]

theorem recorded_first {e : Option Error} {ms : List Message} {path : Bytes} {depth : ℕ}
    {calls reported : List (Bytes × Bytes)}
    (h : visitMessages recorder e ms path depth calls = .ok () reported) : calls <+: reported := by
  induction ms generalizing path depth calls with
  | nil =>
    cases e with
    | some e => cases h
    | none =>
      simp only [visitMessages] at h
      split_ifs at h
      cases h
      exact List.prefix_rfl
  | cons m ms ih =>
    cases m with
    | file name data => exact (List.prefix_append calls [(push path name, data)]).trans (ih h)
    | dir name => exact ih h
    | pop =>
      rw [visitMessages] at h
      split_ifs at h
      exact ih h

theorem normal_nonempty {p name : Bytes} (h : .normal name ∈ components p) : name ≠ [] := by
  rw [components, List.mem_append] at h
  rcases h with h | h
  · split_ifs at h <;> simp at h
  · obtain ⟨s, -, hs⟩ := List.mem_filterMap.mp h
    unfold parseSingleComponent at hs
    split_ifs at hs with h1 h2
    · cases hs
    · cases hs
      exact fun hnil => h1 (.inl hnil)

theorem readName_text {a b : Bytes} (ha : ReadName a) (hb : b ∈ texts a) : ReadName b := by
  obtain ⟨c, hc, rfl⟩ := List.mem_map.mp hb
  cases c with
  | rootDir | curDir | parentDir => exact ⟨by decide, by decide, by decide⟩
  | normal name =>
    obtain ⟨l, r, hinfix⟩ := infix_of_mem_parts (normal_mem_parts hc)
    obtain ⟨x, xs, rfl⟩ := List.exists_cons_of_ne_nil (normal_nonempty hc)
    have hlen := congrArg List.length hinfix
    have hshort := ha.short
    refine ⟨by simp [Component.text], ?_, ?_⟩
    · simp only [Component.text, List.length_append, List.length_cons] at *
      omega
    · intro h0
      refine ha.noNul ?_
      rw [← hinfix]
      cases l with
      | nil => exact List.mem_append_left r h0
      | cons y l =>
        simp only [List.cons_append, List.tail_cons, List.append_assoc, List.mem_append]
        exact .inr (List.mem_cons_of_mem x (List.mem_append_left r h0))

theorem name_of_unpacks {name : List Char}
    (h : Unpacks [.file name []] (encodeAll [.file (Utf8.encode name) []])) :
    ∃ a, ReadName a ∧ Utf8.encode name ∈ texts a := by
  obtain ⟨reported, hok, hfiles⟩ := h
  obtain ⟨ms, hms⟩ := (unpackVisitor_ok_iff _ _ _).mp ⟨reported, hok⟩
  rw [unpackVisitor_eq _ (reads_end_iff.mpr ⟨hms.bytes, hms.readable⟩)] at hok
  cases ms with
  | nil => exact absurd hms.bytes (by simp [Message.encode])
  | cons m ms =>
    have hread := hms.readable m List.mem_cons_self
    have htag := (List.cons.inj hms.bytes).1
    cases m with
    | dir | pop => simp [Message.tag, ArchiveFormat1Tag.toByte] at htag
    | file a data =>
      obtain ⟨rest, rfl⟩ := recorded_first (show
        visitMessages recorder none ms (pop (push [] a)) 0 [(push [] a, data)] = .ok () reported from hok)
      have hpush : push [] a = a := by simp [push]
      have htexts : texts a = [Utf8.encode name] := by
        simp only [List.singleton_append, List.map_cons, hpush] at hfiles
        exact congrArg Prod.fst (List.cons.inj hfiles).1
      exact ⟨a, hread.1, by rw [htexts]; exact List.mem_cons_self⟩

def nested (name : List Char) : List Call := [.dir name, .file name [], .pop]

theorem nested_run (name : List Char) :
    ∃ p, (nested name).forM Call.run newVec = .ok () p ∧ p.depth = 0 := by
  obtain ⟨p₁, h₁, hw₁⟩ := @packDir_wrote name newVec (by decide)
  have hd₁ : p₁.depth = 1 := hw₁.depth
  obtain ⟨p₂, h₂, hw₂⟩ := @packFile_wrote name [] (by decide) p₁
  have hd₂ : p₂.depth = 1 := hw₂.depth.trans hd₁
  obtain ⟨p₃, h₃, hw₃⟩ := @packLeaveDir_wrote p₂ (by omega)
  refine ⟨p₃, forM_cons_eq_ok.mpr ⟨p₁, h₁, forM_cons_eq_ok.mpr ⟨p₂, h₂,
    forM_cons_eq_ok.mpr ⟨p₃, h₃, rfl⟩⟩⟩, ?_⟩
  rw [hw₃.depth]
  simp only [hd₂]

theorem root_not_unpacks {name : List Char} (hroot : Utf8.encode name = [slash]) :
    ¬ Unpacks (nested name) (encodeAll ((nested name).map Call.message)) := by
  simp only [Unpacks, nested, List.map_cons, List.map_nil, Call.message, hroot]
  rintro ⟨reported, hok, hfiles⟩
  cases hok.symm.trans (show unpackVisitor recorder (encodeAll [.dir [slash], .file [slash] [], .pop]) [] =
    .ok () [([slash], [])] from rfl)
  exact absurd hfiles (by decide)

theorem dot_not_unpacks {name : List Char} (hdot : Utf8.encode name = [dot]) :
    ¬ Unpacks (nested name) (encodeAll ((nested name).map Call.message)) := by
  simp only [Unpacks, nested, List.map_cons, List.map_nil, Call.message, hdot]
  rintro ⟨reported, hok, hfiles⟩
  cases hok.symm.trans (show unpackVisitor recorder (encodeAll [.dir [dot], .file [dot] [], .pop]) [] =
    .ok () [([dot, slash, dot], [])] from rfl)
  exact absurd hfiles (by decide)

def Call.NameIn (N : Set (List Char)) : Call → Prop
  | .file name _ => name ∈ N
  | .dir name => name ∈ N
  | .pop => True

/-- The names with which everything that is packed can be unpacked. -/
theorem packed_unpacks_iff (N : Set (List Char)) :
    (∀ calls p, (∀ c ∈ calls, c.NameIn N) → calls.forM Call.run newVec = .ok () p → p.depth = 0 →
      Unpacks calls (intoVec p)) ↔ ∀ name ∈ N, PackName (Utf8.encode name) := by
  constructor
  · intro h name hmem
    have hnested : Unpacks (nested name) (encodeAll ((nested name).map Call.message)) := by
      obtain ⟨p, hrun, hdepth⟩ := nested_run name
      rw [← intoVec_eq hrun]
      exact h _ p (by simpa [nested, Call.NameIn] using hmem) hrun hdepth
    obtain ⟨p, hfile, hw⟩ := @packFile_wrote name [] (by decide) newVec
    have hrun : [Call.file name []].forM Call.run newVec = .ok () p :=
      forM_cons_eq_ok.mpr ⟨p, hfile, rfl⟩
    have hone := h [.file name []] p (by simpa [Call.NameIn] using hmem) hrun hw.depth
    rw [intoVec_eq hrun] at hone
    obtain ⟨a, ha, htext⟩ := name_of_unpacks hone
    have hread := readName_text ha htext
    refine ⟨hread, hread.nonempty, fun hslash => ?_, fun hdot => dot_not_unpacks hdot hnested⟩
    exact root_not_unpacks (text_noSlash htext hslash) hnested
  · intro hN calls p hin hrun hdepth
    refine unpacks_of_names hrun hdepth fun m hm => ?_
    obtain ⟨c, hc, rfl⟩ := List.mem_map.mp hm
    have hname := hin c hc
    cases c with
    | file name data => exact hN name hname
    | dir name => exact hN name hname
    | pop => trivial

/-- A file with an empty name is packed and cannot be unpacked. -/
theorem empty_name_not_unpacked :
    ∃ p, [Call.file [] []].forM Call.run newVec = .ok () p ∧ p.depth = 0 ∧
      unpackVisitor recorder (intoVec p) [] = .error .badSize [] := by
  obtain ⟨p, hfile, hw⟩ := @packFile_wrote [] [] (by decide) newVec
  have hrun : [Call.file [] []].forM Call.run newVec = .ok () p := forM_cons_eq_ok.mpr ⟨p, hfile, rfl⟩
  refine ⟨p, hrun, hw.depth, ?_⟩
  rw [intoVec_eq hrun]
  rfl

end Unpacking

end ProgramExplorer.ArchivePackMem
