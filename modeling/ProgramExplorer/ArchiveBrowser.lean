import ProgramExplorer.ArchiveUnpack
import ProgramExplorer.Utf8

/-!
# The decoder of the browser

`unpackArchiveV1` of `pefrontend/src/pearchive.ts` reads the same archives with
a separate loop: an index into the buffer, its own search for the end of a
name, and a `TextDecoder` for names and contents. It is compared with
`unpack_visitor` on the archives that the packer makes.
-/

set_option autoImplicit false

namespace ProgramExplorer.ArchiveBrowser
open ByteStrings ByteStore LittleEndian UnixPath FileTree InputLoop ArchiveFormat
open ArchivePack ArchiveUnpack
open Utf8

section Decoder

def findZeroByte (buf : Bytes) (start : ℕ) : Option ℕ :=
  (List.range' start (min (start + maxNameLen) buf.length - start)).find? (buf[·]? = some 0)

inductive Content where
  | text (chars : List Char)
  | binary (bytes : Bytes)
  deriving DecidableEq

def extractFile (view : Bytes) : Content :=
  match textDecode view with
  | some chars => .text chars
  | none => .binary view

/-- `new DataView(buffer, start, len)`, which throws if it does not fit. -/
def dataView (buffer : Bytes) (start len : ℕ) : Option Bytes :=
  if start + len ≤ buffer.length then some ((buffer.drop start).take len) else none

def getUint32 (buffer : Bytes) (start : ℕ) : Option ℕ := (dataView buffer start 4).map leNat

def join (names : List (List Char)) : List Char := ['/'].intercalate names

structure Browsing where
  i : ℕ
  pathBuf : List (List Char)
  acc : List (List Char × Content)

/-- Reads a name that starts at an index; the result is the index of its end
and the decoded name. -/
def readName (buffer : Bytes) (i : ℕ) : Option (ℕ × List Char) := do
  let zbi ← findZeroByte buffer i
  let view ← dataView buffer i (zbi - i)
  let name ← textDecode view
  some (zbi, name)

/-- One round of the loop of `unpackArchiveV1`; `none` is an exception. -/
def browseStep (buffer : Bytes) (s : Browsing) :
    Next Browsing (Option (List (List Char × Content))) :=
  match buffer[s.i]? with
  | none => .done (some s.acc)
  | some tag =>
    match ArchiveFormat1Tag.tryFrom tag with
    | some .file =>
      match readName buffer (s.i + 1) with
      | none => .done none
      | some (zbi, name) =>
        match getUint32 buffer (zbi + 1) with
        | none => .done none
        | some len =>
          match dataView buffer (zbi + 1 + 4) len with
          | none => .done none
          | some fileView =>
            .again ⟨zbi + 1 + 4 + len, s.pathBuf,
              s.acc ++ [(join (s.pathBuf ++ [name]), extractFile fileView)]⟩
    | some .dir =>
      match readName buffer (s.i + 1) with
      | none => .done none
      | some (zbi, name) => .again ⟨zbi + 1, s.pathBuf ++ [name], s.acc⟩
    | some .pop => .again ⟨s.i + 1, s.pathBuf.dropLast, s.acc⟩
    | none => .done (some s.acc)

theorem readName_le {buffer : Bytes} {i zbi : ℕ} {name : List Char}
    (h : readName buffer i = some (zbi, name)) : i ≤ zbi := by
  unfold readName at h
  obtain ⟨z, hz, h⟩ := Option.bind_eq_some_iff.mp h
  obtain ⟨view, -, h⟩ := Option.bind_eq_some_iff.mp h
  obtain ⟨cs, -, h⟩ := Option.bind_eq_some_iff.mp h
  cases h
  exact (List.mem_range'_1.mp (List.mem_of_find?_eq_some hz)).1

theorem browseStep_decreases (buffer : Bytes) :
    Decreases (fun s => buffer.length - s.i) (browseStep buffer) := by
  rintro ⟨i, pathBuf, acc⟩ s' h
  simp only [browseStep] at h
  cases hi : buffer[i]? with
  | none =>
    rw [hi] at h
    cases h
  | some tag =>
    have hlt : i < buffer.length := (List.getElem?_eq_some_iff.mp hi).1
    rw [hi] at h
    simp only at h
    split at h
    · split at h
      · cases h
      rename_i zbi name hname
      have hle := readName_le hname
      split at h
      · cases h
      split at h
      · cases h
      cases h
      simp only
      omega
    · split at h
      · cases h
      rename_i zbi name hname
      have hle := readName_le hname
      cases h
      simp only
      omega
    · cases h
      simp only
      omega
    · cases h

/-- The archive may start anywhere in the buffer, as a `DataView` can. -/
def unpackArchiveV1 (buffer : Bytes) (byteOffset : ℕ) : Option (List (List Char × Content)) :=
  run (browseStep_decreases buffer) ⟨byteOffset, [], []⟩

end Decoder

section Machine

def browse : List Message → List (List Char) → Option (List (List Char × Content))
  | [], _ => some []
  | .file name data :: ms, pathBuf =>
    if name.length < maxNameLen then do
      let label ← textDecode name
      let files ← browse ms pathBuf
      some ((join (pathBuf ++ [label]), extractFile data) :: files)
    else none
  | .dir name :: ms, pathBuf =>
    if name.length < maxNameLen then do
      let label ← textDecode name
      browse ms (pathBuf ++ [label])
    else none
  | .pop :: ms, pathBuf => browse ms pathBuf.dropLast

theorem findZeroByte_eq {pre name rest : Bytes} (h : (0 : UInt8) ∉ name) :
    findZeroByte (pre ++ (name ++ 0 :: rest)) pre.length =
      if name.length < maxNameLen then some (pre.length + name.length) else none := by
  have hget : ∀ j, pre.length ≤ j → j < pre.length + name.length →
      (pre ++ (name ++ 0 :: rest))[j]? ≠ some 0 := by
    intro j hj hlt he
    rw [List.getElem?_append_right hj, List.getElem?_append_left (by omega)] at he
    exact h (List.mem_of_getElem? he)
  unfold findZeroByte
  split_ifs with hshort
  · rw [List.find?_range'_eq_some]
    refine ⟨by simp, ?_, fun j hj hlt => by simpa using hget j hj hlt⟩
    rw [List.mem_range'_1]
    simp only [List.length_append, List.length_cons]
    omega
  · rw [List.find?_eq_none]
    intro j hj
    rw [List.mem_range'_1] at hj
    simpa using hget j hj.1 (by omega)

theorem dataView_middle (pre view post : Bytes) :
    dataView (pre ++ (view ++ post)) pre.length view.length = some view := by
  simp [dataView]

def NulFree : Message → Prop
  | .file name data => (0 : UInt8) ∉ name ∧ data.length < 2 ^ 32
  | .dir name => (0 : UInt8) ∉ name
  | .pop => True

theorem readName_eq {pre name rest : Bytes} (h : (0 : UInt8) ∉ name) :
    readName (pre ++ (name ++ 0 :: rest)) pre.length =
      if name.length < maxNameLen then
        (textDecode name).map fun label => (pre.length + name.length, label)
      else none := by
  unfold readName
  rw [findZeroByte_eq h]
  split_ifs with hshort
  · have hview : dataView (pre ++ (name ++ 0 :: rest)) pre.length
        (pre.length + name.length - pre.length) = some name := by
      rw [Nat.add_sub_cancel_left]
      exact dataView_middle pre name (0 :: rest)
    simp only [Option.bind_eq_bind, Option.bind_some, hview]
    cases textDecode name <;> rfl
  · rfl

theorem getUint32_eq (pre : Bytes) (len : UInt32) (rest : Bytes) :
    getUint32 (pre ++ (u32 len ++ rest)) pre.length = some len.toNat := by
  have hview := dataView_middle pre (u32 len) rest
  rw [u32_length] at hview
  have hlt := len.toNat_lt
  rw [getUint32, hview, Option.map_some, u32, leNat_leBytes, Nat.mod_eq_of_lt (by omega)]

section Steps

variable {buffer pre rest name data : Bytes} (pathBuf : List (List Char))
  (acc : List (List Char × Content))

theorem browseStep_file (hb : buffer = pre ++ ((Message.file name data).encode ++ rest))
    (hname : (0 : UInt8) ∉ name) (hdata : data.length < 2 ^ 32) :
    browseStep buffer ⟨pre.length, pathBuf, acc⟩ =
      match (if name.length < maxNameLen then textDecode name else none) with
      | none => .done none
      | some label => .again ⟨(pre ++ (Message.file name data).encode).length, pathBuf,
          acc ++ [(join (pathBuf ++ [label]), extractFile data)]⟩ := by
  have htag : buffer[pre.length]? = some ArchiveFormat1Tag.file.toByte := by
    simp [hb, Message.encode, Message.tag]
  have hread := @readName_eq (pre ++ [ArchiveFormat1Tag.file.toByte]) name
    (u32 (UInt32.ofNat data.length) ++ (data ++ rest)) hname
  have hlen := getUint32_eq (pre ++ ArchiveFormat1Tag.file.toByte :: (name ++ [0]))
    (UInt32.ofNat data.length) (data ++ rest)
  have hview := dataView_middle (pre ++ ArchiveFormat1Tag.file.toByte :: (name ++ 0 ::
    u32 (UInt32.ofNat data.length))) data rest
  have hnum : (UInt32.ofNat data.length).toNat = data.length := by
    rw [UInt32.toNat_ofNat']
    omega
  have hbuf : buffer = (pre ++ [ArchiveFormat1Tag.file.toByte]) ++
      (name ++ 0 :: (u32 (UInt32.ofNat data.length) ++ (data ++ rest))) := by
    simp [hb, Message.encode, Message.tag, Message.body]
  rw [← hbuf, List.length_append, List.length_singleton] at hread
  rw [show (pre ++ ArchiveFormat1Tag.file.toByte :: (name ++ [0])) ++
      (u32 (UInt32.ofNat data.length) ++ (data ++ rest)) = buffer by simp [hbuf],
    show (pre ++ ArchiveFormat1Tag.file.toByte :: (name ++ [0])).length =
      pre.length + 1 + name.length + 1 by simp; omega, hnum] at hlen
  rw [show (pre ++ ArchiveFormat1Tag.file.toByte :: (name ++ 0 ::
      u32 (UInt32.ofNat data.length))) ++ (data ++ rest) = buffer by simp [hbuf],
    show (pre ++ ArchiveFormat1Tag.file.toByte :: (name ++ 0 ::
      u32 (UInt32.ofNat data.length))).length = pre.length + 1 + name.length + 1 + 4 by
        simp; omega] at hview
  simp only [browseStep, htag, tryFrom_toByte, hread]
  by_cases hshort : name.length < maxNameLen
  · simp only [hshort, if_true]
    cases textDecode name with
    | none => rfl
    | some label =>
      have hend : pre.length + 1 + name.length + 1 + 4 + data.length =
          (pre ++ (Message.file name data).encode).length := by
        simp [Message.encode, Message.body]
        omega
      simp only [Option.map_some, hlen, hview, hend]
  · simp only [hshort, if_false]

theorem browseStep_dir (hb : buffer = pre ++ ((Message.dir name).encode ++ rest))
    (hname : (0 : UInt8) ∉ name) :
    browseStep buffer ⟨pre.length, pathBuf, acc⟩ =
      match (if name.length < maxNameLen then textDecode name else none) with
      | none => .done none
      | some label => .again ⟨(pre ++ (Message.dir name).encode).length, pathBuf ++ [label], acc⟩ := by
  have htag : buffer[pre.length]? = some ArchiveFormat1Tag.dir.toByte := by
    simp [hb, Message.encode, Message.tag]
  have hread := @readName_eq (pre ++ [ArchiveFormat1Tag.dir.toByte]) name rest hname
  have hbuf : buffer = (pre ++ [ArchiveFormat1Tag.dir.toByte]) ++ (name ++ 0 :: rest) := by
    simp [hb, Message.encode, Message.tag, Message.body]
  rw [← hbuf, List.length_append, List.length_singleton] at hread
  simp only [browseStep, htag, tryFrom_toByte, hread]
  by_cases hshort : name.length < maxNameLen
  · simp only [hshort, if_true]
    cases textDecode name with
    | none => rfl
    | some label =>
      have hend : pre.length + 1 + name.length + 1 = (pre ++ (Message.dir name).encode).length := by
        simp [Message.encode, Message.body]
        omega
      simp only [Option.map_some, hend]
  · simp only [hshort, if_false]

theorem browseStep_pop (hb : buffer = pre ++ (Message.pop.encode ++ rest)) :
    browseStep buffer ⟨pre.length, pathBuf, acc⟩ =
      .again ⟨(pre ++ Message.pop.encode).length, pathBuf.dropLast, acc⟩ := by
  have htag : buffer[pre.length]? = some ArchiveFormat1Tag.pop.toByte := by
    simp [hb, Message.encode, Message.tag]
  simp only [browseStep, htag, tryFrom_toByte]
  simp [Message.encode, Message.body]

theorem browseStep_end : browseStep pre ⟨pre.length, pathBuf, acc⟩ = .done (some acc) := by
  simp [browseStep]

end Steps

theorem run_eq_browse (buffer : Bytes) (ms : List Message) (hms : ∀ m ∈ ms, NulFree m) (pre : Bytes)
    (hb : buffer = pre ++ encodeAll ms) (pathBuf : List (List Char))
    (acc : List (List Char × Content)) :
    run (browseStep_decreases buffer) ⟨pre.length, pathBuf, acc⟩ =
      (browse ms pathBuf).map (acc ++ ·) := by
  induction ms generalizing pre pathBuf acc with
  | nil =>
    obtain rfl : buffer = pre := by simpa using hb
    rw [run_done _ (browseStep_end pathBuf acc)]
    simp [browse]
  | cons m ms ih =>
    have ih := ih fun m' hm => hms m' (by simp [hm])
    have hb' : buffer = (pre ++ m.encode) ++ encodeAll ms := by simp [hb]
    cases m with
    | file name data =>
      obtain ⟨hname, hdata⟩ := hms (.file name data) (by simp)
      have hstep := browseStep_file pathBuf acc hb hname hdata
      rw [browse]
      split_ifs at hstep ⊢ with hshort
      · cases hd : textDecode name with
        | none =>
          simp only [hd] at hstep
          exact run_done _ hstep
        | some label =>
          simp only [hd] at hstep
          rw [run_again _ hstep, ih _ hb']
          simp only [Option.bind_eq_bind, Option.bind_some]
          cases browse ms pathBuf <;> simp
      · exact run_done _ hstep
    | dir name =>
      have hname : (0 : UInt8) ∉ name := hms (.dir name) (by simp)
      have hstep := browseStep_dir pathBuf acc hb hname
      rw [browse]
      split_ifs at hstep ⊢ with hshort
      · cases hd : textDecode name with
        | none =>
          simp only [hd] at hstep
          exact run_done _ hstep
        | some label =>
          simp only [hd] at hstep
          exact (run_again _ hstep).trans (ih _ hb' _ _)
      · exact run_done _ hstep
    | pop => exact (run_again _ (browseStep_pop pathBuf acc hb)).trans (ih _ hb' _ _)

theorem unpackArchiveV1_eq (pre : Bytes) {ms : List Message} (hms : ∀ m ∈ ms, NulFree m) :
    unpackArchiveV1 (pre ++ encodeAll ms) pre.length = browse ms [] := by
  rw [unpackArchiveV1, run_eq_browse _ ms hms pre rfl]
  simp

end Machine

section Comparison

def label (name : Bytes) : List Char := (textDecode name).getD []

def shown (file : List Bytes × Bytes) : List Char × Content :=
  (join (file.1.map label), extractFile file.2)

def Content.bytes : Content → Bytes
  | .text chars => encode chars
  | .binary bytes => bytes

def asBytes (file : List Char × Content) : Bytes × Bytes := (encode file.1, file.2.bytes)

def ShortNames (ms : List Message) : Prop := ∀ m ∈ ms, m.name.length < maxNameLen

instance (ms : List Message) : Decidable (ShortNames ms) := inferInstanceAs (Decidable (∀ m ∈ ms, _))

def Utf8Names (ms : List Message) : Prop := ∀ m ∈ ms, ∃ cs, m.name = encode cs

theorem shortNames_append {ms ns : List Message} :
    ShortNames (ms ++ ns) ↔ ShortNames ms ∧ ShortNames ns := by
  simp [ShortNames, or_imp, forall_and]

theorem utf8Names_append {ms ns : List Message} :
    Utf8Names (ms ++ ns) ↔ Utf8Names ms ∧ Utf8Names ns := by
  simp [Utf8Names, or_imp, forall_and]

theorem textDecode_label {name : Bytes} (h : ∃ cs, name = encode cs) :
    textDecode name = some (label name) := by
  obtain ⟨cs, rfl⟩ := h
  rw [label, textDecode_encode, Option.getD_some]

mutual
theorem browse_entry (ms : List Message) (name : Bytes) : ∀ (node : Node) (dirs : List Bytes),
    Utf8Names (entryMessages name node) →
      browse (entryMessages name node ++ ms) (dirs.map label) =
        if ShortNames (entryMessages name node) then
          (browse ms (dirs.map label)).map ((entryFiles dirs name node).map shown ++ ·)
        else none
  | .leaf (.regularFile data), dirs, hutf8 => by
    have hlabel := textDecode_label (hutf8 (.file name data) (by simp [entryMessages]))
    simp only [Message.name] at hlabel
    simp only [entryMessages, List.singleton_append, browse, hlabel, ShortNames, List.mem_singleton,
      forall_eq, Message.name, entryFiles, Option.bind_eq_bind, Option.bind_some, List.map_cons,
      List.map_nil, shown, List.map_append]
    split_ifs
    · cases browse ms (dirs.map label) <;> rfl
    · rfl
  | .leaf .other, dirs, _ => by simp [entryMessages, entryFiles, ShortNames]
  | .dir _ entries, dirs, hutf8 => by
    by_cases hdots : isDots name
    · simp [entryMessages, entryFiles, hdots, ShortNames]
    simp only [entryMessages, if_neg hdots] at hutf8 ⊢
    have hlabel := textDecode_label (hutf8 (.dir name) (by simp))
    have hentries : Utf8Names (listingMessages entries) := fun m hm => hutf8 m (by simp [hm])
    have hshort : ShortNames (.dir name :: (listingMessages entries ++ [.pop])) ↔
        name.length < maxNameLen ∧ ShortNames (listingMessages entries) := by
      simp [ShortNames, or_imp, forall_and, Message.name, maxNameLen]
    have hdirs : dirs.map label ++ [label name] = (dirs ++ [name]).map label := by simp
    simp only [Message.name] at hlabel
    simp only [List.cons_append, List.append_assoc, browse, hlabel, Option.bind_eq_bind,
      Option.bind_some, hdirs, browse_listing _ entries (dirs ++ [name]) hentries, hshort,
      entryFiles, if_neg hdots, List.nil_append]
    by_cases hn : name.length < maxNameLen
    · simp [hn]
    · simp [hn]

theorem browse_listing (ms : List Message) : ∀ (entries : Listing) (dirs : List Bytes),
    Utf8Names (listingMessages entries) →
      browse (listingMessages entries ++ ms) (dirs.map label) =
        if ShortNames (listingMessages entries) then
          (browse ms (dirs.map label)).map ((listingFiles dirs entries).map shown ++ ·)
        else none
  | [], dirs, _ => by simp [listingMessages, listingFiles, ShortNames]
  | (name, node) :: rest, dirs, hutf8 => by
    rw [listingMessages] at hutf8 ⊢
    obtain ⟨hnode, hrest⟩ := utf8Names_append.mp hutf8
    rw [List.append_assoc, browse_entry _ name node dirs hnode, browse_listing ms rest dirs hrest]
    simp only [shortNames_append, listingFiles, List.map_append]
    by_cases h1 : ShortNames (entryMessages name node)
    · by_cases h2 : ShortNames (listingMessages rest)
      · simp only [h1, h2, if_true, and_self, Option.map_map]
        congr 1
        funext files
        simp
      · simp [h2]
    · simp [h1]
end

theorem encode_join (names : List (List Char)) : encode (join names) = joined (names.map encode) := by
  have hslash : encode ['/'] = [slash] := by decide
  induction names with
  | nil => rfl
  | cons n ns ih =>
    cases ns with
    | nil => simp [join, joined]
    | cons m ms =>
      rw [List.map_cons, joined_cons (by simp), ← ih]
      simp only [join, List.intercalate_cons_cons, encode_append, hslash]
      simp

theorem encode_label {name : Bytes} (h : ∃ cs, name = encode cs) :
    encode (label name) = if StartsWithMark name then name.drop 3 else name := by
  obtain ⟨cs, rfl⟩ := h
  rw [label, textDecode_encode, Option.getD_some, encode_dropMark]

theorem encode_label_eq_iff {name : Bytes} (h : ∃ cs, name = encode cs) :
    encode (label name) = name ↔ ¬ StartsWithMark name := by
  obtain ⟨cs, rfl⟩ := h
  rw [label, textDecode_encode, Option.getD_some, encode_dropMark_eq_iff]

theorem path_kept_iff {names : List Bytes} (hplain : ∀ n ∈ names, PlainName n)
    (hutf8 : ∀ n ∈ names, ∃ cs, n = encode cs) :
    encode (join (names.map label)) = joined names ↔ ∀ n ∈ names, ¬ StartsWithMark n := by
  rw [encode_join, List.map_map]
  constructor
  · intro he n hn
    have hne : names ≠ [] := List.ne_nil_of_mem hn
    have hno : ∀ m ∈ names.map (encode ∘ label), slash ∉ m := by
      intro m hm
      obtain ⟨n', hn', rfl⟩ := List.mem_map.mp hm
      have hnoslash := (hplain n' hn').noSlash
      rw [Function.comp, encode_label (hutf8 n' hn')]
      split_ifs
      · exact fun hd => hnoslash (List.mem_of_mem_drop hd)
      · exact hnoslash
    have hsplit := congrArg (List.splitOn slash) he
    rw [joined, joined, List.splitOn_intercalate slash hno (by simpa using hne),
      List.splitOn_intercalate slash (fun m hm => (hplain m hm).noSlash) hne] at hsplit
    have hmap : ∀ m ∈ names, (encode ∘ label) m = id m :=
      List.map_inj_left.mp (hsplit.trans (List.map_id names).symm)
    exact (encode_label_eq_iff (hutf8 n hn)).mp (hmap n hn)
  · intro h
    congr 1
    conv_rhs => rw [← List.map_id names]
    exact List.map_congr_left fun n hn => (encode_label_eq_iff (hutf8 n hn)).mpr (h n hn)

theorem content_kept_iff (data : Bytes) :
    (extractFile data).bytes = data ↔ ¬ ((decode data).isSome ∧ StartsWithMark data) := by
  unfold extractFile textDecode
  cases hd : decode data with
  | none => simp [Content.bytes]
  | some cs =>
    obtain rfl := decode_eq_some_iff.mp hd
    simp [Content.bytes, encode_dropMark_eq_iff]

mutual
theorem entryFiles_names (name : Bytes) : ∀ (node : Node) {d : ℕ} (dirs : List Bytes),
    EntryOk d name node → (∀ n ∈ dirs, PlainName n ∧ ∃ cs, n = encode cs) →
      Utf8Names (entryMessages name node) →
      ∀ file ∈ entryFiles dirs name node, ∀ n ∈ file.1, PlainName n ∧ ∃ cs, n = encode cs
  | .leaf (.regularFile data), _, dirs, hok, hdirs, hutf8 => by
    have hname := hutf8 (.file name data) (by simp [entryMessages])
    obtain ⟨hplain, hdirs⟩ := forall₂_and.mp hdirs
    simpa [entryFiles, or_imp, forall_and] using
      ⟨⟨hplain, hok.1.plain⟩, hdirs, by simpa [Message.name] using hname⟩
  | .leaf .other, _, _, _, _, _ => by simp [entryFiles]
  | .dir _ entries, _, dirs, hok, hdirs, hutf8 => by
    by_cases hdots : isDots name
    · simp [entryFiles, hdots]
    obtain ⟨hname, -, hentries⟩ := hok.resolve_left hdots
    simp only [entryMessages, if_neg hdots] at hutf8
    simp only [entryFiles, if_neg hdots]
    refine listingFiles_names entries (dirs ++ [name]) hentries ?_ fun m hm => hutf8 m (by simp [hm])
    intro n hn
    rcases List.mem_append.mp hn with hn | hn
    · exact hdirs n hn
    · obtain rfl := List.mem_singleton.mp hn
      exact ⟨hname.plain, by simpa [Message.name] using hutf8 (.dir n) (by simp)⟩

theorem listingFiles_names : ∀ (entries : Listing) {d : ℕ} (dirs : List Bytes), ListingOk d entries →
    (∀ n ∈ dirs, PlainName n ∧ ∃ cs, n = encode cs) → Utf8Names (listingMessages entries) →
      ∀ file ∈ listingFiles dirs entries, ∀ n ∈ file.1, PlainName n ∧ ∃ cs, n = encode cs
  | [], _, _, _, _, _ => by simp [listingFiles]
  | (name, node) :: rest, _, dirs, hok, hdirs, hutf8 => by
    rw [listingMessages] at hutf8
    obtain ⟨hnode, hrest⟩ := utf8Names_append.mp hutf8
    intro file hf
    rw [listingFiles, List.mem_append] at hf
    exact hf.elim (entryFiles_names name node dirs hok.1 hdirs hnode file)
      (listingFiles_names rest dirs hok.2 hdirs hrest file)
end

mutual
theorem entryMessages_nulFree (name : Bytes) : ∀ (node : Node) {d : ℕ}, EntryOk d name node →
    ∀ m ∈ entryMessages name node, NulFree m ∧ m.name.length ≤ maxNameLen
  | .leaf (.regularFile data), _, hok => by
    simpa [entryMessages, NulFree, Message.name] using ⟨⟨hok.1.noNul, hok.2⟩, hok.1.short⟩
  | .leaf .other, _, _ => by simp [entryMessages]
  | .dir _ entries, _, hok => by
    by_cases hdots : isDots name
    · simp [entryMessages, hdots]
    obtain ⟨hname, -, hentries⟩ := hok.resolve_left hdots
    intro m hm
    simp only [entryMessages, if_neg hdots, List.mem_cons, List.mem_append, List.not_mem_nil,
      or_false] at hm
    rcases hm with rfl | hm | rfl
    · exact ⟨hname.noNul, hname.short⟩
    · exact listingMessages_nulFree entries hentries m hm
    · exact ⟨trivial, Nat.zero_le _⟩

theorem listingMessages_nulFree : ∀ (entries : Listing) {d : ℕ}, ListingOk d entries →
    ∀ m ∈ listingMessages entries, NulFree m ∧ m.name.length ≤ maxNameLen
  | [], _, _ => by simp [listingMessages]
  | (name, node) :: rest, _, hok => by
    intro m hm
    rw [listingMessages, List.mem_append] at hm
    exact hm.elim (entryMessages_nulFree name node hok.1 m) (listingMessages_nulFree rest hok.2 m)
end

/-- On the archive of a tree with valid UTF-8 names, wherever it stands in the
buffer, the browser reports what `unpack_visitor` reports exactly if no name
has 255 bytes, no name on the path of a file starts with a byte order mark,
and no file is a text that starts with one. -/
theorem browser_agrees_iff (kernel : Kernel) (hk : kernel.Sends) (dir : Listing)
    (hdir : ListingOk 0 dir) (hutf8 : Utf8Names (listingMessages dir)) (pre : Bytes) :
    ∃ file calls, packDirToWriter kernel dir ⟨[], 0⟩ = .ok file ∧
      unpackVisitor recorder file.data [] = .ok () calls ∧
      ((unpackArchiveV1 (pre ++ file.data) pre.length).map (List.map asBytes) = some calls ↔
        (∀ m ∈ listingMessages dir, m.name.length ≠ maxNameLen) ∧
          ∀ file ∈ listingFiles [] dir, (∀ n ∈ file.1, ¬ StartsWithMark n) ∧
            ¬ ((decode file.2).isSome ∧ StartsWithMark file.2)) := by
  have hpacked := packDirToWriter_eq hk hdir ⟨[], 0⟩
  have hdata : (Writer.writeAll ⟨[], 0⟩ (encodeAll (listingMessages dir))).data =
      encodeAll (listingMessages dir) := overwrite_nil_zero _
  have hnames := listingFiles_names dir [] hdir (by simp) hutf8
  have hshort : ShortNames (listingMessages dir) ↔
      ∀ m ∈ listingMessages dir, m.name.length ≠ maxNameLen := by
    refine forall₂_congr fun m hm => ?_
    have hle := (listingMessages_nulFree dir hdir m hm).2
    omega
  have hvisit : unpackVisitor recorder (encodeAll (listingMessages dir)) [] =
      .ok () ((listingFiles [] dir).map fun file => (joined file.1, file.2)) := by
    rw [recorder, unpackVisitor_packed _ hdir, visitFiles_recorder, List.nil_append]
  have hbrowse : unpackArchiveV1 (pre ++ encodeAll (listingMessages dir)) pre.length =
      if ShortNames (listingMessages dir) then some ((listingFiles [] dir).map shown) else none := by
    rw [unpackArchiveV1_eq pre fun m hm => (listingMessages_nulFree dir hdir m hm).1]
    have := browse_listing [] dir [] hutf8
    simpa [browse] using this
  refine ⟨_, _, hpacked, by rw [hdata]; exact hvisit, ?_⟩
  rw [hdata, hbrowse, ← hshort]
  by_cases hs : ShortNames (listingMessages dir)
  · simp only [hs, if_true, Option.map_some, Option.some.injEq, List.map_map, true_and]
    rw [List.map_inj_left]
    refine forall₂_congr fun file hf => ?_
    simp only [Function.comp, asBytes, shown, Prod.mk.injEq]
    exact and_congr (path_kept_iff (fun n hn => (hnames file hf n hn).1)
      fun n hn => (hnames file hf n hn).2) (content_kept_iff file.2)
  · simp [hs]

def asciiTree : Listing := [([0x61], .dir () [([0x62], .leaf (.regularFile [0xff]))])]

theorem browser_agrees_ascii :
    ∃ file calls, packDirToWriter slowKernel asciiTree ⟨[], 0⟩ = .ok file ∧
      unpackVisitor recorder file.data [] = .ok () calls ∧
      (unpackArchiveV1 ([1, 2] ++ file.data) 2).map (List.map asBytes) = some calls := by
  have hname : ∀ c : UInt8, c ≠ 0 → c ≠ slash → c ≠ dot → FileName [c] := by
    intro c h0 hs hd
    refine ⟨by simp, by simp [maxNameLen], by simpa using h0.symm, by simpa using hs.symm, ?_⟩
    simpa [isDots] using hd
  have hdir : ListingOk 0 asciiTree :=
    ⟨Or.inr ⟨hname _ (by decide) (by decide) (by decide), by decide,
      ⟨hname _ (by decide) (by decide) (by decide), by decide⟩, trivial⟩, trivial⟩
  have hutf8 : Utf8Names (listingMessages asciiTree) := by
    have hm : listingMessages asciiTree = [.dir [0x61], .file [0x62] [0xff], .pop] := by decide
    rw [hm]
    intro m hm
    rcases List.mem_cons.mp hm with rfl | hm
    · exact ⟨['a'], by decide⟩
    rcases List.mem_cons.mp hm with rfl | hm
    · exact ⟨['b'], by decide⟩
    rcases List.mem_singleton.mp hm with rfl
    exact ⟨[], rfl⟩
  obtain ⟨file, calls, hpack, hvisit, hiff⟩ :=
    browser_agrees_iff slowKernel (fun _ len h => ⟨1, rfl, h⟩) asciiTree hdir hutf8 [1, 2]
  exact ⟨file, calls, hpack, hvisit, hiff.mpr (by decide)⟩

def packed (dir : Listing) : Bytes :=
  match packDirToWriter slowKernel dir ⟨[], 0⟩ with
  | .ok file => file.data
  | .error _ => []

/-- A name of 255 bytes is an exception, and a byte order mark is lost. -/
theorem browser_disagrees :
    (unpackArchiveV1 (packed [(List.replicate 255 0x61, .leaf (.regularFile []))]) 0 = none ∧
      visited (unpackVisitor recorder
        (packed [(List.replicate 255 0x61, .leaf (.regularFile []))]) []) =
          some [(List.replicate 255 0x61, [])]) ∧
    (unpackArchiveV1 (packed [([0x61], .leaf (.regularFile [0xef, 0xbb, 0xbf]))]) 0).map
        (List.map asBytes) = some [([0x61], [])] ∧
      visited (unpackVisitor recorder
        (packed [([0x61], .leaf (.regularFile [0xef, 0xbb, 0xbf]))]) []) =
          some [([0x61], [0xef, 0xbb, 0xbf])] := by
  decide +kernel

end Comparison

end ProgramExplorer.ArchiveBrowser
