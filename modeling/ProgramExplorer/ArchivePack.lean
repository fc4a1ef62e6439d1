import ProgramExplorer.ArchiveFormat
import ProgramExplorer.BufferedWriter
import ProgramExplorer.FileTree
import ProgramExplorer.InputLoop
import ProgramExplorer.UnixPath

/-!
# Packing a directory

`visit_dirc_rec` walks a directory as `getdents` lists it and hands what it
finds to a visitor; `PackFsToWriter` writes one message for each. Names and
sizes go through a buffer, the bytes of a file are sent to the file
descriptor behind it. What ends up in the file is the list of messages of the
tree, in the order of the listing.
-/

set_option autoImplicit false

namespace ProgramExplorer.ArchivePack
open ByteStrings ByteStore LittleEndian StateRules UnixPath FileTree InputLoop
open BufferedWriter ArchiveFormat

section Sendfile

/-- The rest of a transfer: how far the input has been read, how much is
still to be sent, and the file that receives it. -/
structure Transfer where
  offset : ℕ
  len : ℕ
  out : Writer

/-- One round of `sendfile_all`; `answer` is what the kernel returns when it is
asked for so many bytes from so far on. -/
def sendfileStep (answer : ℕ → ℕ → Except ℤ ℕ) (data : Bytes) (t : Transfer) :
    Next Transfer (EStateM.Result Error Writer Unit) :=
  if t.len > 0 then
    match answer t.offset t.len with
    | .error errno => .done (.error (.sendFile errno) t.out)
    | .ok sent =>
      let out := t.out.writeAll ((data.drop t.offset).take sent)
      if sent ≤ t.len then .again ⟨t.offset + sent, t.len - sent, out⟩
      else .done (.error .sizeUnderflow out)
  else .done (.ok () t.out)

/-- A kernel that reports at least one byte or an error, as it does for a file
that does not shrink. -/
structure Kernel where
  answer : ℕ → ℕ → Except ℤ ℕ
  progress : ∀ offset len sent, answer offset len = .ok sent → 0 < sent

theorem sendfileStep_decreases (kernel : Kernel) (data : Bytes) :
    Decreases Transfer.len (sendfileStep kernel.answer data) := by
  intro t t' h
  unfold sendfileStep at h
  split_ifs at h with hlen
  split at h
  · cases h
  · rename_i sent hsent
    have hpos := kernel.progress _ _ _ hsent
    simp only at h
    split_ifs at h
    cases h
    simp only
    omega

def sendfileAll (kernel : Kernel) (data : Bytes) (len : ℕ) (out : Writer) :
    EStateM.Result Error Writer Unit :=
  run (sendfileStep_decreases kernel data) ⟨0, len, out⟩

def Kernel.Sends (kernel : Kernel) : Prop :=
  ∀ offset len, 0 < len → ∃ sent, kernel.answer offset len = .ok sent ∧ sent ≤ len

theorem sendfileAll_eq {kernel : Kernel} (hk : kernel.Sends) (data : Bytes) (out : Writer) :
    sendfileAll kernel data data.length out = .ok () (out.writeAll data) := by
  refine run_rule (sendfileStep_decreases kernel data)
    (fun t => t.offset + t.len = data.length ∧ t.out = out.writeAll (data.take t.offset))
    (· = .ok () (out.writeAll data)) ?_ ?_ ?_
  · rintro t t' ⟨hsum, hout⟩ h
    unfold sendfileStep at h
    split_ifs at h with hlen
    obtain ⟨sent, hsent, hle⟩ := hk t.offset t.len hlen
    simp only [hsent, if_pos hle] at h
    cases h
    refine ⟨by simp only; omega, ?_⟩
    simp only [hout]
    rw [Writer.writeAll_append, ← List.take_add]
  · rintro t a ⟨hsum, hout⟩ h
    unfold sendfileStep at h
    split_ifs at h with hlen
    · obtain ⟨sent, hsent, hle⟩ := hk t.offset t.len hlen
      simp only [hsent, if_pos hle] at h
      cases h
    · cases h
      rw [hout, List.take_of_length_le (by omega)]
  · exact ⟨by simp, by simp [writeAll_nil]⟩

end Sendfile

section Calls

/-- The behaviour of `sendfile` over the calls of a transfer: what it returns
to each of them, asked for so many bytes from so far on. The file may change
between two calls; at its end the kernel returns 0. -/
structure Sendfile where
  answer : ℕ → ℕ → ℕ → Except ℤ ℕ
  bounded : ∀ call offset len sent, answer call offset len = .ok sent → sent ≤ len

structure Sending where
  calls : ℕ
  transfer : Transfer

def sendfileRound (sendfile : Sendfile) (data : Bytes) (s : Sending) :
    Next Sending (EStateM.Result Error Writer Unit) :=
  match sendfileStep (sendfile.answer s.calls) data s.transfer with
  | .again t => .again ⟨s.calls + 1, t⟩
  | .done r => .done r

variable {sendfile : Sendfile} {data : Bytes} {s : Sending} {len : ℕ} {out : Writer}

theorem round_done (h : s.transfer.len = 0) :
    sendfileRound sendfile data s = .done (.ok () s.transfer.out) := by
  rw [sendfileRound, sendfileStep, if_neg (by omega)]

theorem round_error (h : 0 < s.transfer.len) {errno : ℤ}
    (ha : sendfile.answer s.calls s.transfer.offset s.transfer.len = .error errno) :
    sendfileRound sendfile data s = .done (.error (.sendFile errno) s.transfer.out) := by
  rw [sendfileRound, sendfileStep, if_pos h, ha]

theorem round_again (h : 0 < s.transfer.len) {sent : ℕ}
    (ha : sendfile.answer s.calls s.transfer.offset s.transfer.len = .ok sent) :
    sendfileRound sendfile data s =
      .again ⟨s.calls + 1, s.transfer.offset + sent, s.transfer.len - sent,
        s.transfer.out.writeAll ((data.drop s.transfer.offset).take sent)⟩ := by
  have hle := sendfile.bounded _ _ _ _ ha
  rw [sendfileRound, sendfileStep, if_pos h, ha]
  simp only [if_pos hle]

def start (len : ℕ) (out : Writer) : Sending := ⟨0, 0, len, out⟩

/-- From some call on there is something left to send, and every call returns 0. -/
def Stalls (sendfile : Sendfile) (data : Bytes) (len : ℕ) (out : Writer) : Prop :=
  ∃ s, Reached (sendfileRound sendfile data) (start len out) s ∧ 0 < s.transfer.len ∧
    ∀ call, s.calls ≤ call → sendfile.answer call s.transfer.offset s.transfer.len = .ok 0

theorem not_ends_of_stalls (h : Stalls sendfile data len out) :
    ¬ Ends (sendfileRound sendfile data) (start len out) := by
  obtain ⟨s, hr, hpos, hzero⟩ := h
  rw [hr.ends_iff]
  refine not_ends_of_again
    (fun t => 0 < t.transfer.len ∧
      ∀ call, t.calls ≤ call → sendfile.answer call t.transfer.offset t.transfer.len = .ok 0)
    ?_ ⟨hpos, hzero⟩
  rintro t ⟨ht, hz⟩
  exact ⟨_, round_again ht (hz t.calls le_rfl), ht, fun call hcall => hz call (Nat.le_of_succ_le hcall)⟩

/-- A call that does not return 0 comes in the end, and then the transfer has
failed or there is less to send. -/
theorem ends_of_call (hr : Reached (sendfileRound sendfile data) (start len out) s)
    (hpos : 0 < s.transfer.len)
    (hless : ∀ t, Reached (sendfileRound sendfile data) (start len out) t →
      t.transfer.len < s.transfer.len → Ends (sendfileRound sendfile data) t)
    {call : ℕ} (hcall : s.calls ≤ call)
    (hne : sendfile.answer call s.transfer.offset s.transfer.len ≠ .ok 0) :
    Ends (sendfileRound sendfile data) s := by
  induction hd : call - s.calls generalizing s with
  | zero =>
    obtain rfl : s.calls = call := by omega
    cases ha : sendfile.answer s.calls s.transfer.offset s.transfer.len with
    | error errno => exact ends_done (round_error hpos ha)
    | ok sent =>
      have hstep := @round_again sendfile data s hpos sent ha
      have hsent : sent ≠ 0 := fun h0 => hne (h0 ▸ ha)
      refine (ends_again hstep).mpr (hless _ (.again hr hstep) ?_)
      simp only
      omega
  | succ d ih =>
    cases ha : sendfile.answer s.calls s.transfer.offset s.transfer.len with
    | error errno => exact ends_done (round_error hpos ha)
    | ok sent =>
      have hstep := @round_again sendfile data s hpos sent ha
      refine (ends_again hstep).mpr ?_
      by_cases hsent : sent = 0
      · subst hsent
        exact ih (.again hr hstep) hpos hless (by simp only; omega) hne (by simp only; omega)
      · refine hless _ (.again hr hstep) ?_
        simp only
        omega

theorem ends_of_not_stalls (h : ¬ Stalls sendfile data len out)
    (hr : Reached (sendfileRound sendfile data) (start len out) s) :
    Ends (sendfileRound sendfile data) s := by
  induction hn : s.transfer.len using Nat.strong_induction_on generalizing s with
  | _ n ih =>
    subst hn
    by_cases hzero : s.transfer.len = 0
    · exact ends_done (round_done hzero)
    have hpos := Nat.pos_of_ne_zero hzero
    have hcall : ∃ call, s.calls ≤ call ∧
        sendfile.answer call s.transfer.offset s.transfer.len ≠ .ok 0 := by
      by_contra hnone
      refine h ⟨s, hr, hpos, fun call hcall => ?_⟩
      by_contra hne
      exact hnone ⟨call, hcall, hne⟩
    obtain ⟨call, hle, hne⟩ := hcall
    exact ends_of_call hr hpos (fun t ht hlt => ih _ hlt ht rfl) hle hne

theorem offset_add_len (hr : Reached (sendfileRound sendfile data) (start len out) s) :
    s.transfer.offset + s.transfer.len = len := by
  refine Reached.rule (I := fun s => s.transfer.offset + s.transfer.len = len) (fun s s' hs hstep => ?_)
    (Nat.zero_add len) hr
  by_cases hzero : s.transfer.len = 0
  · rw [round_done hzero] at hstep
    cases hstep
  have hpos := Nat.pos_of_ne_zero hzero
  cases ha : sendfile.answer s.calls s.transfer.offset s.transfer.len with
  | error errno =>
    rw [round_error hpos ha] at hstep
    cases hstep
  | ok sent =>
    have hle := sendfile.bounded _ _ _ _ ha
    rw [round_again hpos ha] at hstep
    cases hstep
    simp only
    omega

theorem len_of_done {out' : Writer} (h : sendfileRound sendfile data s = .done (.ok () out')) :
    s.transfer.len = 0 := by
  by_contra hzero
  have hpos := Nat.pos_of_ne_zero hzero
  cases ha : sendfile.answer s.calls s.transfer.offset s.transfer.len with
  | error errno =>
    rw [round_error hpos ha] at h
    cases h
  | ok sent =>
    rw [round_again hpos ha] at h
    cases h

/-- The calls come to an end, and an end without an error has sent everything. -/
structure Finishes (sendfile : Sendfile) (data : Bytes) (len : ℕ) (out : Writer) : Prop where
  ends : Ends (sendfileRound sendfile data) (start len out)
  sent : ∀ s out', Reached (sendfileRound sendfile data) (start len out) s →
    sendfileRound sendfile data s = .done (.ok () out') → s.transfer.offset = len

/-- `sendfile_all` ends unless the kernel returns 0 for ever. -/
theorem sendfile_finishes_iff (sendfile : Sendfile) (data : Bytes) (len : ℕ) (out : Writer) :
    Finishes sendfile data len out ↔ ¬ Stalls sendfile data len out := by
  constructor
  · intro h hstalls
    exact not_ends_of_stalls hstalls h.ends
  · intro h
    refine ⟨ends_of_not_stalls h .start, fun s out' hr hdone => ?_⟩
    have hsum := offset_add_len hr
    rw [len_of_done hdone] at hsum
    exact hsum

def atEndOfFile : Sendfile where
  answer _ _ _ := .ok 0
  bounded := by
    rintro call offset len sent h
    cases h
    exact Nat.zero_le len

theorem shrunk_file_never_ends : ¬ Finishes atEndOfFile [] 1 ⟨[], 0⟩ := fun h =>
  not_ends_of_stalls ⟨start 1 ⟨[], 0⟩, .start, Nat.one_pos, fun _ _ => rfl⟩ h.ends

end Calls

section Visitor

inductive Leaf where
  | regularFile (data : Bytes)
  | other

abbrev Node := Tree Leaf Unit

abbrev Listing := List (Bytes × Node)

structure PackFsVisitor (σ : Type) where
  onFile : Bytes → Bytes → EStateM Error σ Unit
  onDir : Bytes → EStateM Error σ Unit
  leaveDir : EStateM Error σ Unit

variable {σ : Type}

def mapErr {α : Type} (e : Error) (act : EStateM Error σ α) : EStateM Error σ α := fun s =>
  match act s with
  | .ok a s => .ok a s
  | .error _ s => .error e s

def isDots (name : Bytes) : Prop := name = [dot] ∨ name = [dot, dot]

instance (name : Bytes) : Decidable (isDots name) := inferInstanceAs (Decidable (_ ∨ _))

mutual
def visitEntry (v : PackFsVisitor σ) (name : Bytes) : Node → EStateM Error σ Unit
  | .leaf (.regularFile data) => v.onFile name data
  | .leaf .other => pure ()
  | .dir _ entries =>
    if isDots name then pure ()
    else do
      mapErr .onDir (v.onDir name)
      visitDircRec v entries
      mapErr .onDir v.leaveDir

def visitDircRec (v : PackFsVisitor σ) : Listing → EStateM Error σ Unit
  | [] => pure ()
  | (name, node) :: rest => do
    visitEntry v name node
    visitDircRec v rest
end

structure PackFsToWriter where
  writer : BufWriter
  depth : ℕ

def writeAll (bs : Bytes) : EStateM Error PackFsToWriter Unit :=
  modify fun p => { p with writer := p.writer.writeAll bs }

def toBytesWithNul (name : Bytes) : Bytes := name ++ [0]

def packOnFile (kernel : Kernel) (name data : Bytes) : EStateM Error PackFsToWriter Unit := do
  require (data.length < 2 ^ 32) .write
  writeAll [ArchiveFormat1Tag.file.toByte]
  writeAll (toBytesWithNul name)
  writeAll (u32 (UInt32.ofNat data.length))
  modify fun p => { p with writer := p.writer.flush }
  fun p =>
    match sendfileAll kernel data data.length p.writer.inner with
    | .ok _ inner => .ok () { p with writer := { p.writer with inner := inner } }
    | .error e inner => .error e { p with writer := { p.writer with inner := inner } }

def packOnDir (name : Bytes) : EStateM Error PackFsToWriter Unit := do
  let p ← get
  require (¬ p.depth > maxDirDepth) .dirTooDeep
  modify fun p => { p with depth := p.depth + 1 }
  writeAll [ArchiveFormat1Tag.dir.toByte]
  writeAll (toBytesWithNul name)

def packLeaveDir : EStateM Error PackFsToWriter Unit := do
  let p ← get
  require (¬ p.depth = 0) .emptyStack
  modify fun p => { p with depth := p.depth - 1 }
  writeAll [ArchiveFormat1Tag.pop.toByte]

def packFsToWriter (kernel : Kernel) : PackFsVisitor PackFsToWriter where
  onFile := packOnFile kernel
  onDir := packOnDir
  leaveDir := packLeaveDir

def packDirToWriter (kernel : Kernel) (dir : Listing) (writer : Writer) : Except Error Writer :=
  match visitDircRec (packFsToWriter kernel) dir ⟨.new writer, 0⟩ with
  | .ok _ p => .ok p.writer.intoInner
  | .error e _ => .error e

end Visitor

section Messages

mutual
def entryMessages (name : Bytes) : Node → List Message
  | .leaf (.regularFile data) => [.file name data]
  | .leaf .other => []
  | .dir _ entries =>
    if isDots name then [] else .dir name :: (listingMessages entries ++ [.pop])

def listingMessages : Listing → List Message
  | [] => []
  | (name, node) :: rest => entryMessages name node ++ listingMessages rest
end

def encodeAll (ms : List Message) : Bytes := ms.flatMap Message.encode

@[simp] theorem encodeAll_nil : encodeAll [] = [] := rfl

@[simp] theorem encodeAll_cons (m : Message) (ms : List Message) :
    encodeAll (m :: ms) = m.encode ++ encodeAll ms := rfl

@[simp] theorem encodeAll_append (ms ns : List Message) :
    encodeAll (ms ++ ns) = encodeAll ms ++ encodeAll ns := List.flatMap_append

/-- A name as `getdents` returns it, other than the two that every directory
has. -/
structure FileName (name : Bytes) : Prop where
  nonempty : name ≠ []
  short : name.length ≤ maxNameLen
  noNul : (0 : UInt8) ∉ name
  noSlash : slash ∉ name
  notDots : ¬ isDots name

theorem FileName.read {name : Bytes} (h : FileName name) : ReadName name :=
  ⟨h.nonempty, h.short, fun hm => h.noNul (List.mem_of_mem_tail hm)⟩

theorem FileName.plain {name : Bytes} (h : FileName name) : PlainName name :=
  ⟨h.nonempty, h.noSlash, fun he => h.notDots (Or.inl he), fun he => h.notDots (Or.inr he)⟩

mutual
/-- A tree of files below 4 GiB, nested no deeper than the packer allows. -/
def EntryOk (depth : ℕ) (name : Bytes) : Node → Prop
  | .leaf (.regularFile data) => FileName name ∧ data.length < 2 ^ 32
  | .leaf .other => True
  | .dir _ entries =>
    isDots name ∨ FileName name ∧ depth ≤ maxDirDepth ∧ ListingOk (depth + 1) entries

def ListingOk (depth : ℕ) : Listing → Prop
  | [] => True
  | (name, node) :: rest => EntryOk depth name node ∧ ListingOk depth rest
end

structure Wrote (p : PackFsToWriter) (bs : Bytes) (p' : PackFsToWriter) : Prop where
  depth : p'.depth = p.depth
  settled : p'.writer.settled = p.writer.settled.writeAll bs

theorem Wrote.refl (p : PackFsToWriter) : Wrote p [] p := ⟨rfl, (writeAll_nil _).symm⟩

theorem Wrote.trans {p p' p'' : PackFsToWriter} {a b : Bytes} (h : Wrote p a p')
    (h' : Wrote p' b p'') : Wrote p (a ++ b) p'' :=
  ⟨h'.depth.trans h.depth, by rw [h'.settled, h.settled, Writer.writeAll_append]⟩

theorem packOnFile_wrote {kernel : Kernel} (hk : kernel.Sends) (name : Bytes) {data : Bytes}
    (hdata : data.length < 2 ^ 32) (p : PackFsToWriter) :
    ∃ p', packOnFile kernel name data p = .ok () p' ∧ Wrote p (Message.file name data).encode p' := by
  simp only [packOnFile, bind, EStateM.bind, require, if_pos hdata, writeAll, modify_run,
    inner_flush, sendfileAll_eq hk]
  refine ⟨_, rfl, rfl, (writeAll_nil _).trans ?_⟩
  simp [Message.encode, Message.tag, Message.body, toBytesWithNul, Writer.writeAll_append]

theorem packOnDir_wrote {p : PackFsToWriter} (hdepth : p.depth ≤ maxDirDepth) (name : Bytes) :
    ∃ p', packOnDir name p = .ok () p' ∧ Wrote { p with depth := p.depth + 1 }
      (Message.dir name).encode p' := by
  simp only [packOnDir, bind, EStateM.bind, get_run, require,
    gt_iff_lt, not_lt, if_pos hdepth, writeAll, modify_run]
  refine ⟨_, rfl, rfl, ?_⟩
  simp [Message.encode, Message.tag, Message.body, toBytesWithNul, Writer.writeAll_append]

theorem packLeaveDir_wrote {p : PackFsToWriter} (hdepth : p.depth ≠ 0) :
    ∃ p', packLeaveDir p = .ok () p' ∧ Wrote { p with depth := p.depth - 1 } Message.pop.encode p' := by
  simp only [packLeaveDir, bind, EStateM.bind, get_run, require,
    if_pos hdepth, writeAll, modify_run]
  refine ⟨_, rfl, rfl, ?_⟩
  simp [Message.encode, Message.tag, Message.body]

theorem mapErr_ok {σ α : Type} {e : Error} {act : EStateM Error σ α} {a : α} {s s' : σ}
    (h : act s = .ok a s') : mapErr e act s = .ok a s' := by
  simp only [mapErr, h]

mutual
theorem visitEntry_wrote {kernel : Kernel} (hk : kernel.Sends) (name : Bytes) :
    ∀ (node : Node) (p : PackFsToWriter), EntryOk p.depth name node →
      ∃ p', visitEntry (packFsToWriter kernel) name node p = .ok () p' ∧
        Wrote p (encodeAll (entryMessages name node)) p'
  | .leaf (.regularFile data), p, h => by
    obtain ⟨p', hp', hw⟩ := packOnFile_wrote hk name h.2 p
    exact ⟨p', hp', by simpa [entryMessages] using hw⟩
  | .leaf .other, p, _ => ⟨p, rfl, Wrote.refl p⟩
  | .dir _ entries, p, h => by
    by_cases hdots : isDots name
    · simp only [visitEntry, entryMessages, if_pos hdots]
      exact ⟨p, rfl, Wrote.refl p⟩
    obtain ⟨-, hdepth, hentries⟩ := h.resolve_left hdots
    obtain ⟨p₁, h₁, hw₁⟩ := packOnDir_wrote hdepth name
    have hd₁ : p₁.depth = p.depth + 1 := hw₁.depth
    obtain ⟨p₂, h₂, hw₂⟩ := visitDircRec_wrote hk entries p₁ (hd₁ ▸ hentries)
    have hd₂ : p₂.depth = p.depth + 1 := hw₂.depth.trans hd₁
    obtain ⟨p₃, h₃, hw₃⟩ := packLeaveDir_wrote (p := p₂) (by omega)
    simp only [visitEntry, entryMessages, if_neg hdots]
    refine ⟨p₃, ?_, ?_, ?_⟩
    · exact bind_eq_ok.mpr ⟨(), p₁, mapErr_ok h₁, bind_eq_ok.mpr ⟨(), p₂, h₂, mapErr_ok h₃⟩⟩
    · rw [hw₃.depth]
      simp only [hd₂, Nat.add_sub_cancel]
    · rw [hw₃.settled, hw₂.settled, hw₁.settled]
      simp [Writer.writeAll_append]

theorem visitDircRec_wrote {kernel : Kernel} (hk : kernel.Sends) :
    ∀ (entries : Listing) (p : PackFsToWriter), ListingOk p.depth entries →
      ∃ p', visitDircRec (packFsToWriter kernel) entries p = .ok () p' ∧
        Wrote p (encodeAll (listingMessages entries)) p'
  | [], p, _ => ⟨p, rfl, Wrote.refl p⟩
  | (name, node) :: rest, p, h => by
    obtain ⟨p₁, h₁, hw₁⟩ := visitEntry_wrote hk name node p h.1
    obtain ⟨p₂, h₂, hw₂⟩ := visitDircRec_wrote hk rest p₁ (hw₁.depth ▸ h.2)
    refine ⟨p₂, bind_eq_ok.mpr ⟨(), p₁, h₁, h₂⟩, ?_⟩
    rw [listingMessages, encodeAll_append]
    exact hw₁.trans hw₂
end

/-- Packing appends the messages of the tree at the writer's position. -/
theorem packDirToWriter_eq {kernel : Kernel} (hk : kernel.Sends) {dir : Listing}
    (hdir : ListingOk 0 dir) (writer : Writer) :
    packDirToWriter kernel dir writer = .ok (writer.writeAll (encodeAll (listingMessages dir))) := by
  obtain ⟨p, hp, hw⟩ := visitDircRec_wrote hk dir ⟨.new writer, 0⟩ hdir
  simp only [packDirToWriter, hp, intoInner_eq, hw.settled, settled_new]

end Messages

end ProgramExplorer.ArchivePack
