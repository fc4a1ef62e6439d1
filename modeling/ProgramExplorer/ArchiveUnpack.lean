import ProgramExplorer.ArchivePack

/-!
# Reading an archive

`unpack_visitor` reads message after message and keeps the path of the open
directories and their number. Reading is separated from what the messages do:
`messages` is what can be read off the input before it ends or goes wrong,
and the decoder is a machine that runs over these messages.
-/

set_option autoImplicit false

namespace ProgramExplorer.ArchiveUnpack
open ByteStrings ByteStore LittleEndian StateRules UnixPath FileTree InputLoop ArchiveFormat
open ArchivePack

section Decoder

structure UnpackVisitor (σ : Type) where
  onFile : Bytes → Bytes → σ → Bool × σ

structure Unpacking (σ : Type) where
  cur : Bytes
  path : Bytes
  depth : ℕ
  visitor : σ

variable {σ : Type} (v : UnpackVisitor σ)

def unpackStep (s : Unpacking σ) : Next (Unpacking σ) (EStateM.Result Error σ Unit) :=
  match s.cur with
  | [] => .done (if s.depth = 0 then .ok () s.visitor else .error .archiveTruncated s.visitor)
  | tag :: cur =>
    match ArchiveFormat1Tag.tryFrom tag with
    | some .file =>
      match readFile cur with
      | .error e => .done (.error e s.visitor)
      | .ok (name, data, rest) =>
        let path := push s.path name
        match v.onFile path data s.visitor with
        | (false, visitor) => .done (.ok () visitor)
        | (true, visitor) => .again ⟨rest, pop path, s.depth, visitor⟩
    | some .dir =>
      match readCstr cur with
      | .error e => .done (.error e s.visitor)
      | .ok (name, rest) => .again ⟨rest, push s.path name, s.depth + 1, s.visitor⟩
    | some .pop =>
      if s.depth = 0 then .done (.error .emptyStack s.visitor)
      else .again ⟨cur, pop s.path, s.depth - 1, s.visitor⟩
    | none => .done (.error .badTag s.visitor)

def onMessage (m : Message) (s : Unpacking σ) :
    Next (Unpacking σ) (EStateM.Result Error σ Unit) :=
  match m with
  | .file name data =>
    let path := push s.path name
    match v.onFile path data s.visitor with
    | (false, visitor) => .done (.ok () visitor)
    | (true, visitor) => .again ⟨s.cur, pop path, s.depth, visitor⟩
  | .dir name => .again ⟨s.cur, push s.path name, s.depth + 1, s.visitor⟩
  | .pop =>
    if s.depth = 0 then .done (.error .emptyStack s.visitor)
    else .again ⟨s.cur, pop s.path, s.depth - 1, s.visitor⟩

theorem unpackStep_cons (tag : UInt8) (cur path : Bytes) (depth : ℕ) (visitor : σ) :
    unpackStep v ⟨tag :: cur, path, depth, visitor⟩ =
      match readMessage tag cur with
      | .error e => .done (.error e visitor)
      | .ok (m, rest) => onMessage v m ⟨rest, path, depth, visitor⟩ := by
  simp only [unpackStep, readMessage]
  cases ArchiveFormat1Tag.tryFrom tag with
  | none => rfl
  | some t =>
    cases t with
    | file =>
      cases readFile cur <;> rfl
    | dir =>
      cases readCstr cur <;> rfl
    | pop => rfl

theorem onMessage_cur {m : Message} {s s' : Unpacking σ} (h : onMessage v m s = .again s') :
    s'.cur = s.cur := by
  cases m with
  | file name data =>
    simp only [onMessage] at h
    split at h <;> cases h
    rfl
  | dir name =>
    cases h
    rfl
  | pop =>
    simp only [onMessage] at h
    split_ifs at h
    cases h
    rfl

theorem readMessage_length {tag : UInt8} {cur rest : Bytes} {m : Message}
    (h : readMessage tag cur = .ok (m, rest)) : rest.length ≤ cur.length := by
  rw [(readMessage_ok h).2.1, List.length_append]
  omega

theorem unpackStep_decreases : Decreases (fun s => s.cur.length) (unpackStep v) := by
  rintro ⟨cur, path, depth, visitor⟩ s' h
  cases cur with
  | nil => cases h
  | cons tag cur =>
    rw [unpackStep_cons] at h
    split at h
    · cases h
    · rename_i m rest hread
      have hle := readMessage_length hread
      have hcur := onMessage_cur v h
      simp only [List.length_cons, hcur]
      omega

def unpackVisitor (data : Bytes) (visitor : σ) : EStateM.Result Error σ Unit :=
  run (unpackStep_decreases v) ⟨data, [], 0, visitor⟩

def visited : EStateM.Result Error σ Unit → Option σ
  | .ok _ s => some s
  | .error _ _ => none

end Decoder

section Messages

def readMessages : ℕ → Bytes → List Message × Option Error
  | _, [] => ([], none)
  | 0, _ :: _ => ([], none)
  | n + 1, tag :: cur =>
    match readMessage tag cur with
    | .error e => ([], some e)
    | .ok (m, rest) => (m :: (readMessages n rest).1, (readMessages n rest).2)

/-- The messages at the front of an archive, and the error that ends them. -/
def messages (data : Bytes) : List Message × Option Error := readMessages data.length data

/-- The input starts with these messages; then it ends or cannot be read. -/
inductive Reads : Bytes → List Message → Option Error → Prop
  | nil : Reads [] [] none
  | bad {tag : UInt8} {cur : Bytes} {e : Error} (h : readMessage tag cur = .error e) :
      Reads (tag :: cur) [] (some e)
  | cons {tag : UInt8} {cur rest : Bytes} {m : Message} {ms : List Message} {e : Option Error}
      (h : readMessage tag cur = .ok (m, rest)) (hs : Reads rest ms e) :
      Reads (tag :: cur) (m :: ms) e

theorem readMessages_reads {n : ℕ} {data : Bytes} (h : data.length ≤ n) :
    Reads data (readMessages n data).1 (readMessages n data).2 := by
  induction n generalizing data with
  | zero =>
    obtain rfl := List.length_eq_zero_iff.mp (Nat.le_zero.mp h)
    exact .nil
  | succ n ih =>
    cases data with
    | nil => exact .nil
    | cons tag cur =>
      rw [readMessages]
      cases hread : readMessage tag cur with
      | error e => exact .bad hread
      | ok r =>
        have hle := readMessage_length hread
        have hcur : cur.length ≤ n := by simpa using h
        exact .cons hread (ih (hle.trans hcur))

theorem messages_reads (data : Bytes) : Reads data (messages data).1 (messages data).2 :=
  readMessages_reads (le_refl _)

theorem Reads.unique {data : Bytes} {ms ms' : List Message} {e e' : Option Error}
    (h : Reads data ms e) (h' : Reads data ms' e') : ms = ms' ∧ e = e' := by
  induction h generalizing ms' e' with
  | nil =>
    cases h'
    exact ⟨rfl, rfl⟩
  | bad hbad =>
    cases h' with
    | bad hbad' =>
      rw [hbad] at hbad'
      cases hbad'
      exact ⟨rfl, rfl⟩
    | cons hread' =>
      rw [hbad] at hread'
      cases hread'
  | cons hread _ ih =>
    cases h' with
    | bad hbad' =>
      rw [hread] at hbad'
      cases hbad'
    | cons hread' hs' =>
      rw [hread] at hread'
      cases hread'
      obtain ⟨rfl, rfl⟩ := ih hs'
      exact ⟨rfl, rfl⟩

theorem messages_eq {data : Bytes} {ms : List Message} {e : Option Error} (h : Reads data ms e) :
    messages data = (ms, e) := by
  obtain ⟨h1, h2⟩ := (messages_reads data).unique h
  exact Prod.ext h1 h2

/-- Exactly the concatenations of readable messages are read to the end. -/
theorem reads_end_iff {data : Bytes} {ms : List Message} :
    Reads data ms none ↔ data = encodeAll ms ∧ ∀ m ∈ ms, m.Readable := by
  constructor
  · intro h
    generalize he : (none : Option Error) = e at h
    induction h with
    | nil => exact ⟨rfl, by simp⟩
    | bad => cases he
    | cons hread _ ih =>
      obtain ⟨rfl, hall⟩ := ih he
      obtain ⟨rfl, rfl, hm⟩ := readMessage_ok hread
      exact ⟨by simp [Message.encode], by simpa using ⟨hm, hall⟩⟩
  · rintro ⟨rfl, hall⟩
    induction ms with
    | nil => exact .nil
    | cons m ms ih =>
      rw [encodeAll_cons, Message.encode, List.cons_append]
      exact .cons (readMessage_append (hall m (by simp)) _) (ih fun m' hm => hall m' (by simp [hm]))

theorem reads_readable {data : Bytes} {ms : List Message} {e : Option Error} (h : Reads data ms e) :
    ∀ m ∈ ms, m.Readable := by
  induction h with
  | nil => simp
  | bad => simp
  | cons hread _ ih => exact List.forall_mem_cons.mpr ⟨(readMessage_ok hread).2.2, ih⟩

end Messages

section Machine

variable {σ : Type} (v : UnpackVisitor σ)

def visitMessages (e : Option Error) : List Message → Bytes → ℕ → σ → EStateM.Result Error σ Unit
  | [], _, depth, visitor =>
    match e with
    | some e => .error e visitor
    | none => if depth = 0 then .ok () visitor else .error .archiveTruncated visitor
  | .file name data :: ms, path, depth, visitor =>
    match v.onFile (push path name) data visitor with
    | (false, visitor) => .ok () visitor
    | (true, visitor) => visitMessages e ms (pop (push path name)) depth visitor
  | .dir name :: ms, path, depth, visitor => visitMessages e ms (push path name) (depth + 1) visitor
  | .pop :: ms, path, depth, visitor =>
    if depth = 0 then .error .emptyStack visitor
    else visitMessages e ms (pop path) (depth - 1) visitor

theorem run_eq_visitMessages {cur : Bytes} {ms : List Message} {e : Option Error}
    (h : Reads cur ms e) (path : Bytes) (depth : ℕ) (visitor : σ) :
    run (unpackStep_decreases v) ⟨cur, path, depth, visitor⟩ =
      visitMessages v e ms path depth visitor := by
  induction h generalizing path depth visitor with
  | nil => exact run_done _ rfl
  | bad hbad => exact run_done _ (by simp only [unpackStep_cons, hbad, visitMessages])
  | @cons tag cur rest m ms e hread _ ih =>
    have hstep : unpackStep v ⟨tag :: cur, path, depth, visitor⟩ =
        onMessage v m ⟨rest, path, depth, visitor⟩ := by
      simp only [unpackStep_cons, hread]
    cases m with
    | file name data =>
      rw [visitMessages]
      simp only [onMessage] at hstep
      cases hon : v.onFile (push path name) data visitor with
      | mk goOn visitor' =>
        simp only [hon] at hstep
        cases goOn with
        | false => exact run_done _ hstep
        | true => exact (run_again _ hstep).trans (ih ..)
    | dir name => exact (run_again _ hstep).trans (ih ..)
    | pop =>
      rw [visitMessages]
      simp only [onMessage] at hstep
      split_ifs at hstep ⊢
      · exact run_done _ hstep
      · exact (run_again _ hstep).trans (ih ..)

theorem unpackVisitor_eq {data : Bytes} {ms : List Message} {e : Option Error} (h : Reads data ms e)
    (visitor : σ) : unpackVisitor v data visitor = visitMessages v e ms [] 0 visitor :=
  run_eq_visitMessages v h [] 0 visitor

end Machine

section RoundTrip

def continuing {σ : Type} (onFile : Bytes → Bytes → σ → σ) : UnpackVisitor σ where
  onFile path data s := (true, onFile path data s)

def recorder : UnpackVisitor (List (Bytes × Bytes)) :=
  continuing fun path data calls => calls ++ [(path, data)]

mutual
/-- The regular files of a tree: the names that lead to each, and its bytes. -/
def entryFiles (dirs : List Bytes) (name : Bytes) : Node → List (List Bytes × Bytes)
  | .leaf (.regularFile data) => [(dirs ++ [name], data)]
  | .leaf .other => []
  | .dir _ entries => if isDots name then [] else listingFiles (dirs ++ [name]) entries

def listingFiles (dirs : List Bytes) : Listing → List (List Bytes × Bytes)
  | [] => []
  | (name, node) :: rest => entryFiles dirs name node ++ listingFiles dirs rest
end

variable {σ : Type} (onFile : Bytes → Bytes → σ → σ)

def visitFiles (files : List (List Bytes × Bytes)) (s : σ) : σ :=
  files.foldl (fun s file => onFile (joined file.1) file.2 s) s

theorem visitFiles_append (files files' : List (List Bytes × Bytes)) (s : σ) :
    visitFiles onFile (files ++ files') s = visitFiles onFile files' (visitFiles onFile files s) :=
  List.foldl_append

mutual
theorem visitMessages_entry (e : Option Error) (ms : List Message) (name : Bytes) :
    ∀ (node : Node) {d : ℕ} (dirs : List Bytes) (depth : ℕ) (s : σ), EntryOk d name node →
      (∀ n ∈ dirs, PlainName n) →
      visitMessages (continuing onFile) e (entryMessages name node ++ ms) (joined dirs) depth s =
        visitMessages (continuing onFile) e ms (joined dirs) depth
          (visitFiles onFile (entryFiles dirs name node) s)
  | .leaf (.regularFile data), _, dirs, depth, s, hok, hdirs => by
    have hall : ∀ n ∈ dirs ++ [name], PlainName n := by
      simpa [or_imp, forall_and] using ⟨hdirs, hok.1.plain⟩
    simp only [entryMessages, List.singleton_append, visitMessages, continuing, entryFiles,
      visitFiles, List.foldl_cons, List.foldl_nil, push_joined hdirs hok.1.plain,
      pop_joined hall]
  | .leaf .other, _, _, _, _, _, _ => rfl
  | .dir _ entries, _, dirs, depth, s, hok, hdirs => by
    by_cases hdots : isDots name
    · simp only [entryMessages, entryFiles, if_pos hdots]
      rfl
    obtain ⟨hname, -, hentries⟩ := hok.resolve_left hdots
    have hall : ∀ n ∈ dirs ++ [name], PlainName n := by
      simpa [or_imp, forall_and] using ⟨hdirs, hname.plain⟩
    simp only [entryMessages, entryFiles, if_neg hdots, List.cons_append, List.append_assoc,
      visitMessages]
    rw [push_joined hdirs hname.plain,
      visitMessages_listing e _ entries (dirs ++ [name]) (depth + 1) s hentries hall,
      List.nil_append, visitMessages, if_neg (by omega), pop_joined hall, Nat.add_sub_cancel]

theorem visitMessages_listing (e : Option Error) (ms : List Message) :
    ∀ (entries : Listing) {d : ℕ} (dirs : List Bytes) (depth : ℕ) (s : σ), ListingOk d entries →
      (∀ n ∈ dirs, PlainName n) →
      visitMessages (continuing onFile) e (listingMessages entries ++ ms) (joined dirs) depth s =
        visitMessages (continuing onFile) e ms (joined dirs) depth
          (visitFiles onFile (listingFiles dirs entries) s)
  | [], _, _, _, _, _, _ => rfl
  | (name, node) :: rest, _, dirs, depth, s, hok, hdirs => by
    rw [listingMessages, List.append_assoc,
      visitMessages_entry e _ name node dirs depth s hok.1 hdirs,
      visitMessages_listing e ms rest dirs depth _ hok.2 hdirs, listingFiles, visitFiles_append]
end

mutual
theorem entryMessages_readable (name : Bytes) : ∀ (node : Node) {d : ℕ}, EntryOk d name node →
    ∀ m ∈ entryMessages name node, m.Readable
  | .leaf (.regularFile data), _, hok => by
    simpa [entryMessages, Message.Readable] using ⟨hok.1.read, hok.2⟩
  | .leaf .other, _, _ => by simp [entryMessages]
  | .dir _ entries, _, hok => by
    by_cases hdots : isDots name
    · simp [entryMessages, hdots]
    obtain ⟨hname, -, hentries⟩ := hok.resolve_left hdots
    intro m hm
    simp only [entryMessages, if_neg hdots, List.mem_cons, List.mem_append, List.not_mem_nil,
      or_false] at hm
    rcases hm with rfl | hm | rfl
    · exact hname.read
    · exact listingMessages_readable entries hentries m hm
    · trivial

theorem listingMessages_readable : ∀ (entries : Listing) {d : ℕ}, ListingOk d entries →
    ∀ m ∈ listingMessages entries, m.Readable
  | [], _, _ => by simp [listingMessages]
  | (name, node) :: rest, _, hok => by
    intro m hm
    rw [listingMessages, List.mem_append] at hm
    exact hm.elim (entryMessages_readable name node hok.1 m)
      (listingMessages_readable rest hok.2 m)
end

theorem unpackVisitor_packed {dir : Listing} (hdir : ListingOk 0 dir) (s : σ) :
    unpackVisitor (continuing onFile) (encodeAll (listingMessages dir)) s =
      .ok () (visitFiles onFile (listingFiles [] dir) s) := by
  have hreads : Reads (encodeAll (listingMessages dir)) (listingMessages dir) none :=
    reads_end_iff.mpr ⟨rfl, listingMessages_readable dir hdir⟩
  rw [unpackVisitor_eq _ hreads]
  simpa [visitMessages, joined] using
    visitMessages_listing onFile none [] dir [] 0 s hdir (by simp)

theorem visitFiles_recorder (files : List (List Bytes × Bytes)) (calls : List (Bytes × Bytes)) :
    visitFiles (fun path data calls => calls ++ [(path, data)]) files calls =
      calls ++ files.map fun file => (joined file.1, file.2) := by
  induction files generalizing calls with
  | nil => simp [visitFiles]
  | cons file files ih =>
    exact (ih _).trans (by simp)

/-- What is packed into an empty file is unpacked without an error, with one
call for each regular file, its path below the root and its bytes. -/
theorem archive_roundtrip (kernel : Kernel) (hk : kernel.Sends) (dir : Listing)
    (hdir : ListingOk 0 dir) :
    ∃ file, packDirToWriter kernel dir ⟨[], 0⟩ = .ok file ∧
      unpackVisitor recorder file.data [] =
        .ok () ((listingFiles [] dir).map fun file => (joined file.1, file.2)) := by
  refine ⟨_, packDirToWriter_eq hk hdir _, ?_⟩
  have hdata : (Writer.writeAll ⟨[], 0⟩ (encodeAll (listingMessages dir))).data =
      encodeAll (listingMessages dir) := overwrite_nil_zero _
  rw [hdata, recorder, unpackVisitor_packed _ hdir, visitFiles_recorder, List.nil_append]

def slowKernel : Kernel where
  answer _ _ := .ok 1
  progress _ _ _ h := by
    cases h
    exact Nat.one_pos

theorem archive_roundtrip_nested :
    ∃ file, packDirToWriter slowKernel
        [([dot], .dir () []), ([0x61], .dir () [([0x62], .leaf (.regularFile [7, 8])),
          ([0x63], .leaf .other)]), ([0x64], .leaf (.regularFile []))] ⟨[], 0⟩ = .ok file ∧
      unpackVisitor recorder file.data [] = .ok () [([0x61, slash, 0x62], [7, 8]), ([0x64], [])] := by
  have hname : ∀ c : UInt8, c ≠ 0 → c ≠ slash → c ≠ dot → FileName [c] := by
    intro c h0 hs hd
    refine ⟨by simp, by simp [maxNameLen], by simpa using h0.symm, by simpa using hs.symm, ?_⟩
    simpa [isDots] using hd
  refine archive_roundtrip slowKernel (fun _ len h => ⟨1, rfl, h⟩) _ ?_
  refine ⟨Or.inl (Or.inl rfl), Or.inr ⟨hname _ (by decide) (by decide) (by decide), by decide, ?_⟩,
    ⟨hname _ (by decide) (by decide) (by decide), by decide⟩, trivial⟩
  exact ⟨⟨hname _ (by decide) (by decide) (by decide), by decide⟩, trivial, trivial⟩

end RoundTrip

end ProgramExplorer.ArchiveUnpack
