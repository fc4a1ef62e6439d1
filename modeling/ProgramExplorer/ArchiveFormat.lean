import ProgramExplorer.LittleEndian
import ProgramExplorer.StateRules

/-!
# The archive format

The errors, the tags and the primitive readers of `pearchive/src/lib.rs`. An
archive is a sequence of messages: a file with its name and its bytes, a
directory that is entered, and a directory that is left.
-/

set_option autoImplicit false

namespace ProgramExplorer.ArchiveFormat
open ByteStrings LittleEndian StateRules

inductive Errno where
  | noent
  | exist
  | isdir
  | notdir
  | xdev
  deriving DecidableEq, Repr

inductive Error where
  | create
  | openAt (errno : Errno)
  | getdents
  | dirTooDeep
  | mkdirAt (errno : Errno)
  | fstat
  | onFile
  | onDir
  | onPop
  | write
  | sendFile (errno : ℤ)
  | flush
  | badName
  | badSize
  | emptyStack
  | badTag
  | archiveTruncated
  | chdir
  | chroot
  | unshare
  | mmap
  | stackEmpty
  | badCStr
  | sizeUnderflow
  deriving DecidableEq, Repr

def maxDirDepth : ℕ := 32

def maxNameLen : ℕ := 255

inductive ArchiveFormat1Tag where
  | file
  | dir
  | pop
  deriving DecidableEq, Repr

def ArchiveFormat1Tag.toByte : ArchiveFormat1Tag → UInt8
  | .file => 1
  | .dir => 2
  | .pop => 3

def ArchiveFormat1Tag.tryFrom (x : UInt8) : Option ArchiveFormat1Tag :=
  if x = 1 then some .file
  else if x = 2 then some .dir
  else if x = 3 then some .pop
  else none

theorem tryFrom_eq_some {x : UInt8} {tag : ArchiveFormat1Tag} :
    ArchiveFormat1Tag.tryFrom x = some tag ↔ x = tag.toByte := by
  unfold ArchiveFormat1Tag.tryFrom
  constructor
  · intro h
    split_ifs at h with h1 h2 h3 <;> cases h <;> assumption
  · rintro rfl
    cases tag <;> rfl

@[simp] theorem tryFrom_toByte (tag : ArchiveFormat1Tag) :
    ArchiveFormat1Tag.tryFrom tag.toByte = some tag := tryFrom_eq_some.mpr rfl

section Readers

def readLeU32 (input : Bytes) : Except Error (UInt32 × Bytes) :=
  match takeU32 input with
  | some (x, rest) => .ok (x, rest)
  | none => .error .badSize

/-- The name without its terminator, and the rest. The search for the
terminator starts at the second byte. -/
def readCstr (input : Bytes) : Except Error (Bytes × Bytes) :=
  if input = [] then .error .badName
  else if input = [0] then .error .badName
  else
    match (List.range' 1 (min input.length (maxNameLen + 1) - 1)).find? (input[·]? = some 0) with
    | some i => .ok (input.take i, input.drop (i + 1))
    | none => .error .badName

/-- What both decoders do after the tag of a file: the name, the size and that
many bytes. -/
def readFile (input : Bytes) : Except Error (Bytes × Bytes × Bytes) := do
  let (name, cur) ← readCstr input
  let (len, cur) ← readLeU32 cur
  if len.toNat > cur.length then .error .archiveTruncated
  else .ok (name, cur.take len.toNat, cur.drop len.toNat)

/-- A name as the reader accepts it: only its first byte is not looked at. -/
structure ReadName (name : Bytes) : Prop where
  nonempty : name ≠ []
  short : name.length ≤ maxNameLen
  noNul : (0 : UInt8) ∉ name.tail

theorem readCstr_append {name : Bytes} (h : ReadName name) (rest : Bytes) :
    readCstr (name ++ 0 :: rest) = .ok (name, rest) := by
  have hpos : 0 < name.length := List.length_pos_of_ne_nil h.nonempty
  have hshort : name.length ≤ 255 := h.short
  have hfind : (List.range' 1 (min (name ++ 0 :: rest).length (maxNameLen + 1) - 1)).find?
      ((name ++ 0 :: rest)[·]? = some 0) = some name.length := by
    rw [List.find?_range'_eq_some]
    refine ⟨by simp, by simp [List.mem_range'_1, maxNameLen]; omega, ?_⟩
    intro j hj hlt
    rw [List.getElem?_append_left hlt]
    cases name with
    | nil => exact absurd rfl h.nonempty
    | cons c cs =>
      obtain ⟨j, rfl⟩ := Nat.exists_eq_add_of_le' hj
      simp only [List.getElem?_cons_succ, Bool.not_eq_true', decide_eq_false_iff_not]
      exact fun he => h.noNul (List.mem_of_getElem? he)
  rw [readCstr, if_neg (by simp), if_neg ?_, hfind]
  · simp
  · intro he
    have hlen := congrArg List.length he
    simp only [List.length_append, List.length_cons, List.length_nil] at hlen
    omega

theorem readCstr_ok {input name rest : Bytes} (h : readCstr input = .ok (name, rest)) :
    input = name ++ 0 :: rest ∧ ReadName name := by
  unfold readCstr at h
  split_ifs at h with h1 h2
  split at h
  · rename_i i hi
    rw [List.find?_range'_eq_some] at hi
    obtain ⟨hz, hmem, hfirst⟩ := hi
    have hz : input[i]? = some 0 := by simpa using hz
    rw [List.mem_range'_1] at hmem
    obtain ⟨hlt, hget⟩ := List.getElem?_eq_some_iff.mp hz
    cases h
    refine ⟨?_, ?_, ?_, ?_⟩
    · rw [← hget, ← List.drop_eq_getElem_cons hlt, List.take_append_drop]
    · intro hnil
      rcases List.take_eq_nil_iff.mp hnil with h0 | h0
      · omega
      · exact h1 h0
    · exact (List.length_take_le i input).trans (by omega)
    · intro hmem0
      obtain ⟨k, hk⟩ := List.mem_iff_getElem?.mp hmem0
      rw [List.getElem?_tail, List.getElem?_take] at hk
      split_ifs at hk with hki
      have := hfirst (k + 1) (by omega) hki
      simp [hk] at this
  · cases h

end Readers

section Messages

inductive Message where
  | file (name data : Bytes)
  | dir (name : Bytes)
  | pop
  deriving DecidableEq, Repr

def Message.tag : Message → ArchiveFormat1Tag
  | .file _ _ => .file
  | .dir _ => .dir
  | .pop => .pop

def Message.name : Message → Bytes
  | .file name _ => name
  | .dir name => name
  | .pop => []

def Message.body : Message → Bytes
  | .file name data => name ++ 0 :: (u32 (UInt32.ofNat data.length) ++ data)
  | .dir name => name ++ [0]
  | .pop => []

def Message.encode (m : Message) : Bytes := m.tag.toByte :: m.body

def Message.Readable : Message → Prop
  | .file name data => ReadName name ∧ data.length < 2 ^ 32
  | .dir name => ReadName name
  | .pop => True

def readMessage (tag : UInt8) (cur : Bytes) : Except Error (Message × Bytes) :=
  match ArchiveFormat1Tag.tryFrom tag with
  | none => .error .badTag
  | some .file => do
    let (name, data, rest) ← readFile cur
    .ok (.file name data, rest)
  | some .dir => do
    let (name, rest) ← readCstr cur
    .ok (.dir name, rest)
  | some .pop => .ok (.pop, cur)

theorem readFile_append {name data : Bytes} (hname : ReadName name) (hdata : data.length < 2 ^ 32)
    (rest : Bytes) :
    readFile (name ++ 0 :: (u32 (UInt32.ofNat data.length) ++ (data ++ rest))) =
      .ok (name, data, rest) := by
  have hlen : (UInt32.ofNat data.length).toNat = data.length := by
    rw [UInt32.toNat_ofNat']
    omega
  simp only [readFile, readCstr_append hname, readLeU32, takeU32_append, bind, Except.bind, hlen]
  rw [if_neg (by simp)]
  simp

theorem readFile_ok {input name data rest : Bytes} (h : readFile input = .ok (name, data, rest)) :
    input = name ++ 0 :: (u32 (UInt32.ofNat data.length) ++ (data ++ rest)) ∧ ReadName name ∧
      data.length < 2 ^ 32 := by
  obtain ⟨⟨name', cur⟩, hname, hrest⟩ := except_bind_eq_ok.mp h
  obtain ⟨⟨len, cur'⟩, hlen, hdata⟩ := except_bind_eq_ok.mp hrest
  obtain ⟨rfl, hread⟩ := readCstr_ok hname
  unfold readLeU32 at hlen
  split at hlen
  · rename_i x rest' htake
    cases hlen
    obtain rfl := takeU32_eq_some htake
    simp only at hdata
    split_ifs at hdata with hshort
    cases hdata
    have hlen : (cur'.take len.toNat).length = len.toNat := by
      rw [List.length_take]
      omega
    refine ⟨?_, hread, hlen.trans_lt len.toNat_lt⟩
    rw [hlen, UInt32.ofNat_toNat, List.take_append_drop]
  · cases hlen

theorem readMessage_append {m : Message} (h : m.Readable) (rest : Bytes) :
    readMessage m.tag.toByte (m.body ++ rest) = .ok (m, rest) := by
  unfold readMessage
  rw [tryFrom_toByte]
  cases m with
  | file name data =>
    simp only [Message.tag, Message.body, List.append_assoc, List.cons_append,
      readFile_append h.1 h.2, bind, Except.bind]
  | dir name =>
    simp only [Message.tag, Message.body, List.append_assoc, List.cons_append, List.nil_append,
      readCstr_append h, bind, Except.bind]
  | pop => rfl

theorem readMessage_ok {tag : UInt8} {cur rest : Bytes} {m : Message}
    (h : readMessage tag cur = .ok (m, rest)) :
    tag = m.tag.toByte ∧ cur = m.body ++ rest ∧ m.Readable := by
  unfold readMessage at h
  split at h
  · cases h
  · rename_i htag
    obtain ⟨⟨name, data, rest'⟩, hread, h⟩ := except_bind_eq_ok.mp h
    cases h
    obtain ⟨rfl, hname, hdata⟩ := readFile_ok hread
    exact ⟨tryFrom_eq_some.mp htag, by simp [Message.body], hname, hdata⟩
  · rename_i htag
    obtain ⟨⟨name, rest'⟩, hread, h⟩ := except_bind_eq_ok.mp h
    cases h
    obtain ⟨rfl, hname⟩ := readCstr_ok hread
    exact ⟨tryFrom_eq_some.mp htag, by simp [Message.body], hname⟩
  · rename_i htag
    cases h
    exact ⟨tryFrom_eq_some.mp htag, rfl, trivial⟩

theorem readMessage_file {tag : UInt8} {cur name data rest : Bytes}
    (h : readMessage tag cur = .ok (.file name data, rest)) :
    ArchiveFormat1Tag.tryFrom tag = some .file ∧ readFile cur = .ok (name, data, rest) := by
  obtain ⟨rfl, rfl, hname, hdata⟩ := readMessage_ok h
  exact ⟨tryFrom_toByte .file, by simpa [Message.body] using readFile_append hname hdata rest⟩

theorem readMessage_dir {tag : UInt8} {cur name rest : Bytes}
    (h : readMessage tag cur = .ok (.dir name, rest)) :
    ArchiveFormat1Tag.tryFrom tag = some .dir ∧ readCstr cur = .ok (name, rest) := by
  obtain ⟨rfl, rfl, hname⟩ := readMessage_ok h
  exact ⟨tryFrom_toByte .dir, by simpa [Message.body] using readCstr_append hname rest⟩

theorem readMessage_pop {tag : UInt8} {cur rest : Bytes}
    (h : readMessage tag cur = .ok (.pop, rest)) :
    ArchiveFormat1Tag.tryFrom tag = some .pop ∧ rest = cur := by
  obtain ⟨rfl, rfl, -⟩ := readMessage_ok h
  exact ⟨tryFrom_toByte .pop, rfl⟩

end Messages

end ProgramExplorer.ArchiveFormat
