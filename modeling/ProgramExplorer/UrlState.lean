import ProgramExplorer.ArchiveFrontend
import ProgramExplorer.Base64

/-!
# Settings in the hash of the page

`pefrontend/src/urlstate.ts`: the settings of the page are written as JSON,
the JSON text as base64, and that as one of the `key=value` parts of the hash.
`btoa` throws for a character above U+00FF, and `JSON.stringify` leaves such
characters as they are, except that it escapes a surrogate that stands alone.
-/

set_option autoImplicit false

namespace ProgramExplorer.UrlState
open ByteStrings Utf16 Base64
open ArchiveFrontend (Content File)

section Json

def ascii (cs : List Char) : JsString := cs.map fun c => UInt16.ofNat c.toNat

/-- A value that `JSON.parse` returns. A number or a boolean is kept as its text. -/
inductive Json where
  | null
  | literal (text : JsString)
  | string (s : JsString)
  | array (items : List Json)
  | object (members : List (JsString × Json))

def hexDigit (n : ℕ) : UInt16 := if n < 10 then UInt16.ofNat (n + 0x30) else UInt16.ofNat (n - 10 + 0x61)

def unicodeEscape (u : UInt16) : JsString :=
  ascii ['\\', 'u'] ++ [hexDigit (u.toNat / 4096 % 16), hexDigit (u.toNat / 256 % 16),
    hexDigit (u.toNat / 16 % 16), hexDigit (u.toNat % 16)]

def quoteCodePoint : CodePoint → JsString
  | .pair u v => [u, v]
  | .lone u => unicodeEscape u
  | .unit u =>
    if u = 0x08 then ascii ['\\', 'b']
    else if u = 0x09 then ascii ['\\', 't']
    else if u = 0x0a then ascii ['\\', 'n']
    else if u = 0x0c then ascii ['\\', 'f']
    else if u = 0x0d then ascii ['\\', 'r']
    else if u = 0x22 then ascii ['\\', '"']
    else if u = 0x5c then ascii ['\\', '\\']
    else if u.toNat < 0x20 then unicodeEscape u
    else [u]

def quote (s : JsString) : JsString :=
  ascii ['"'] ++ (codePoints s).flatMap quoteCodePoint ++ ascii ['"']

mutual
def stringify : Json → JsString
  | .null => ascii ['n', 'u', 'l', 'l']
  | .literal text => text
  | .string s => quote s
  | .array items => ascii ['['] ++ stringifyItems items ++ ascii [']']
  | .object members => ascii ['{'] ++ stringifyMembers members ++ ascii ['}']

def stringifyItems : List Json → JsString
  | [] => []
  | [v] => stringify v
  | v :: w :: rest => stringify v ++ ascii [','] ++ stringifyItems (w :: rest)

def stringifyMembers : List (JsString × Json) → JsString
  | [] => []
  | [(key, v)] => quote key ++ ascii [':'] ++ stringify v
  | (key, v) :: m :: rest =>
    quote key ++ ascii [':'] ++ stringify v ++ ascii [','] ++ stringifyMembers (m :: rest)
end

/-- `x.key`: undefined for a key that is not there, an exception for `null`. -/
def Json.member (x : Json) (key : JsString) : Option (Option Json) :=
  match x with
  | .null => none
  | .object members => some (members.lookup key)
  | _ => some none

end Json

section Saving

/-- What `onSaveToUrl` reads from the page; `files` is undefined without an editor. -/
structure SaveState where
  cmd : Option JsString
  stdin : Option JsString
  env : Option JsString
  image : Option JsString
  files : Option (List File)

def keyCmd : JsString := ascii ['c', 'm', 'd']

def keyStdin : JsString := ascii ['s', 't', 'd', 'i', 'n']

def keyEnv : JsString := ascii ['e', 'n', 'v']

def keyImage : JsString := ascii ['i', 'm', 'a', 'g', 'e']

def keyFiles : JsString := ascii ['f', 'i', 'l', 'e', 's']

def keyP : JsString := ascii ['p']

def keyS : JsString := ascii ['s']

def keyB : JsString := ascii ['b']

def bufToBase64 (x : Bytes) : Option JsString := btoa (latin1String x)

def bufFromBase64 (x : JsString) : Option Bytes :=
  (atob x).map fun s => s.map fun u => UInt8.ofNat u.toNat

def saveFile (file : File) : Option Json :=
  match file.data with
  | .text s => some (.object [(keyP, .string file.path), (keyS, .string s)])
  | .buffer bytes => (bufToBase64 bytes).map fun b =>
    .object [(keyP, .string file.path), (keyB, .string b)]

def nullable : Option JsString → Json
  | some s => .string s
  | none => .null

def saveState (x : SaveState) : Option Json := do
  let files ← match x.files with
    | some files => (files.mapM saveFile).map fun items => [(keyFiles, .array items)]
    | none => some []
  some (.object ([(keyCmd, nullable x.cmd), (keyStdin, nullable x.stdin), (keyEnv, nullable x.env),
    (keyImage, nullable x.image)] ++ files))

def encodeUrlHashState (x : Json) : Option JsString := btoa (stringify x)

def moreX : JsString := ascii ['m', 'o', 'r', 'e', '=', 'x', '&']

def onSaveToUrl (more : Bool) (x : SaveState) : Option JsString := do
  let state ← saveState x
  let s ← encodeUrlHashState state
  some ((if more then moreX else []) ++ ascii ['s', '='] ++ s)

end Saving

section Loading

variable (parse : JsString → Option Json)

structure UrlHashState where
  help : Bool
  more : Bool
  cmd : Option JsString
  stdin : Option JsString
  env : Option JsString
  image : Option JsString
  files : Option (List (Json × Content))
  gist : Option JsString

def checkString : Option Json → Option JsString
  | some (.string s) => some s
  | _ => none

/-- One round of the loop of `checkFiles`: an exception, `return null`, or a file. -/
def checkFile (y : Json) : Option (Option (Json × Content)) := do
  match ← y.member keyP with
  | none | some .null => some none
  | some path =>
    match ← y.member keyS with
    | some (.string s) => some (some (path, .text s))
    | _ =>
      match ← y.member keyB with
      | some (.string b) => some ((bufFromBase64 b).map fun data => (path, .buffer data))
      | _ => some none

def checkItems : List Json → Option (Option (List (Json × Content)))
  | [] => some (some [])
  | y :: rest => do
    match ← checkFile y with
    | none => some none
    | some file => (checkItems rest).map fun files => files.map (file :: ·)

def checkFiles : Option Json → Option (Option (List (Json × Content)))
  | some (.array items) => checkItems items
  | _ => some none

def decodeBase64Json (s : Option JsString) : Json :=
  let s := s.getD (ascii ['u', 'n', 'd', 'e', 'f', 'i', 'n', 'e', 'd'])
  ((atob s).bind parse).getD (.object [])

def parsePart (ret : UrlHashState) (part : JsString) : Option UrlHashState :=
  let fields := part.splitOn 0x3d
  let a := fields[0]?
  let b := fields[1]?
  let x := some (ascii ['x'])
  if a = some (ascii ['h', 'e', 'l', 'p']) ∧ b = x then some { ret with help := true }
  else if a = some (ascii ['m', 'o', 'r', 'e']) ∧ b = x then some { ret with more := true }
  else if a = some (ascii ['s']) then do
    let settings := decodeBase64Json parse b
    let cmd ← settings.member keyCmd
    let stdin ← settings.member keyStdin
    let image ← settings.member keyImage
    let env ← settings.member keyEnv
    let files ← checkFiles (← settings.member keyFiles)
    some { ret with
      cmd := checkString cmd
      stdin := checkString stdin
      image := checkString image
      env := checkString env
      files := files }
  else if a = some (ascii ['g', 'i', 's', 't']) then some { ret with gist := b }
  else some ret

def UrlHashState.initial : UrlHashState := ⟨false, false, none, none, none, none, none, none⟩

/-- The state that a hash describes; nothing if an exception is thrown. -/
def parseUrlHashState (s : JsString) : Option UrlHashState :=
  ((s.drop 1).splitOn 0x26).foldlM (parsePart parse) .initial

end Loading

section Text

@[simp] theorem inRange_append {s t : JsString} : InRange (s ++ t) ↔ InRange s ∧ InRange t := by
  simp [InRange, or_imp, forall_and]

/-- No character above U+00FF, except for surrogates that stand alone. -/
def Latin1Point : CodePoint → Prop
  | .pair _ _ => False
  | .lone _ => True
  | .unit u => u.toNat ≤ 0xff

def Latin1 (s : JsString) : Prop := ∀ c ∈ codePoints s, Latin1Point c

instance : (c : CodePoint) → Decidable (Latin1Point c)
  | .pair _ _ => inferInstanceAs (Decidable False)
  | .lone _ => inferInstanceAs (Decidable True)
  | .unit u => inferInstanceAs (Decidable (u.toNat ≤ 0xff))

instance (s : JsString) : Decidable (Latin1 s) := List.decidableBAll _ (codePoints s)

theorem hexDigit_le : ∀ n < 16, (hexDigit n).toNat ≤ 0xff := by
  decide

theorem inRange_unicodeEscape (u : UInt16) : InRange (unicodeEscape u) := by
  have hlt : ∀ n, n % 16 < 16 := fun n => Nat.mod_lt n (by decide)
  have hstart : InRange (ascii ['\\', 'u']) := by decide
  rw [unicodeEscape, inRange_append]
  refine ⟨hstart, ?_⟩
  intro v hv
  simp only [List.mem_cons, List.not_mem_nil, or_false] at hv
  rcases hv with rfl | rfl | rfl | rfl <;> exact hexDigit_le _ (hlt _)

theorem inRange_quoteCodePoint {c : CodePoint} (h : c.Proper) :
    InRange (quoteCodePoint c) ↔ Latin1Point c := by
  cases c with
  | pair u v =>
    refine iff_of_false (fun hin => ?_) id
    have hu := hin u (by simp [quoteCodePoint])
    have hlead := h.1.1
    omega
  | lone u => exact iff_of_true (inRange_unicodeEscape u) trivial
  | unit u =>
    simp only [quoteCodePoint, Latin1Point]
    split_ifs with h1 h2 h3 h4 h5 h6 h7 h8
    · exact iff_of_true (by decide) (by rw [h1]; decide)
    · exact iff_of_true (by decide) (by rw [h2]; decide)
    · exact iff_of_true (by decide) (by rw [h3]; decide)
    · exact iff_of_true (by decide) (by rw [h4]; decide)
    · exact iff_of_true (by decide) (by rw [h5]; decide)
    · exact iff_of_true (by decide) (by rw [h6]; decide)
    · exact iff_of_true (by decide) (by rw [h7]; decide)
    · exact iff_of_true (inRange_unicodeEscape u) (by omega)
    · simp [InRange]

theorem inRange_quote (s : JsString) : InRange (quote s) ↔ Latin1 s := by
  have hq : InRange (ascii ['"']) := by decide
  rw [quote, inRange_append, inRange_append]
  simp only [hq, true_and, and_true]
  constructor
  · intro h c hc
    refine (inRange_quoteCodePoint (codePoints_proper s c hc)).mp fun u hu => ?_
    exact h u (List.mem_flatMap.mpr ⟨c, hc, hu⟩)
  · intro h u hu
    obtain ⟨c, hc, hu⟩ := List.mem_flatMap.mp hu
    exact (inRange_quoteCodePoint (codePoints_proper s c hc)).mpr (h c hc) u hu

mutual
def Json.AllLatin1 : Json → Prop
  | .null => True
  | .literal text => InRange text
  | .string s => Latin1 s
  | .array items => ItemsLatin1 items
  | .object members => MembersLatin1 members

def ItemsLatin1 : List Json → Prop
  | [] => True
  | v :: rest => v.AllLatin1 ∧ ItemsLatin1 rest

def MembersLatin1 : List (JsString × Json) → Prop
  | [] => True
  | (key, v) :: rest => Latin1 key ∧ v.AllLatin1 ∧ MembersLatin1 rest
end

mutual
theorem inRange_stringify : ∀ v : Json, InRange (stringify v) ↔ v.AllLatin1
  | .null => by simpa [stringify, Json.AllLatin1] using (by decide : InRange (ascii ['n', 'u', 'l', 'l']))
  | .literal text => by simp [stringify, Json.AllLatin1]
  | .string s => by simpa [stringify, Json.AllLatin1] using inRange_quote s
  | .array items => by
    have h1 : InRange (ascii ['[']) := by decide
    have h2 : InRange (ascii [']']) := by decide
    simp only [stringify, inRange_append, h1, h2, Json.AllLatin1, true_and, and_true]
    exact inRange_stringifyItems items
  | .object members => by
    have h1 : InRange (ascii ['{']) := by decide
    have h2 : InRange (ascii ['}']) := by decide
    simp only [stringify, inRange_append, h1, h2, Json.AllLatin1, true_and, and_true]
    exact inRange_stringifyMembers members

theorem inRange_stringifyItems : ∀ items : List Json, InRange (stringifyItems items) ↔ ItemsLatin1 items
  | [] => by simp [stringifyItems, ItemsLatin1, InRange]
  | [v] => by simpa [stringifyItems, ItemsLatin1] using inRange_stringify v
  | v :: w :: rest => by
    have hcomma : InRange (ascii [',']) := by decide
    rw [stringifyItems, inRange_append, inRange_append, ItemsLatin1, inRange_stringify v,
      inRange_stringifyItems (w :: rest)]
    simp only [hcomma, and_true]

theorem inRange_stringifyMembers : ∀ members : List (JsString × Json),
    InRange (stringifyMembers members) ↔ MembersLatin1 members
  | [] => by simp [stringifyMembers, MembersLatin1, InRange]
  | [(key, v)] => by
    have hcolon : InRange (ascii [':']) := by decide
    simp only [stringifyMembers, MembersLatin1, inRange_append, hcolon, and_true, inRange_quote,
      inRange_stringify v]
  | (key, v) :: m :: rest => by
    have hcolon : InRange (ascii [':']) := by decide
    have hcomma : InRange (ascii [',']) := by decide
    rw [stringifyMembers, MembersLatin1]
    simp only [inRange_append, hcolon, hcomma, and_true, inRange_quote, inRange_stringify v,
      inRange_stringifyMembers (m :: rest), and_assoc]
end

theorem btoa_eq_some {s t : JsString} : btoa s = some t ↔
    ∃ bs, latin1Bytes s = some bs ∧ t = encode bs := by
  simp [btoa, eq_comm]

theorem latin1Bytes_isSome {s : JsString} : (∃ bs, latin1Bytes s = some bs) ↔ InRange s := by
  unfold latin1Bytes
  split_ifs with h
  · exact iff_of_true ⟨_, rfl⟩ h
  · exact iff_of_false (by simp) h

end Text

section RoundTrip

theorem mem_of_mem_codePoints {s : JsString} {c : CodePoint} (hc : c ∈ codePoints s) {u : UInt16}
    (hu : u ∈ c.units) : u ∈ s := by
  rw [← flatMap_units s]
  exact List.mem_flatMap.mpr ⟨c, hc, hu⟩

theorem latin1_of_ascii {s : JsString} (h : ∀ u ∈ s, u.toNat < 0x80) : Latin1 s := by
  intro c hc
  have hproper := codePoints_proper s c hc
  cases c with
  | pair u v =>
    have hu := h u (mem_of_mem_codePoints hc (by simp [CodePoint.units]))
    have hlead := hproper.1.1
    exact absurd hlead (by omega)
  | lone u => trivial
  | unit u =>
    have hu := h u (mem_of_mem_codePoints hc (by simp [CodePoint.units]))
    exact (show u.toNat ≤ 0xff by omega)

theorem digit_lt : ∀ n < 64, (digit n).toNat < 0x80 := by
  decide

theorem encode_ascii (bs : Bytes) : ∀ u ∈ encode bs, u.toNat < 0x80 := by
  intro u hu
  rcases List.mem_append.mp hu with hu | hu
  · obtain ⟨n, hn, rfl⟩ := List.mem_map.mp hu
    exact digit_lt n (sextets_lt bs n hn)
  · rw [(List.mem_replicate.mp hu).2]
    decide

def fileJson (file : File) : Json :=
  match file.data with
  | .text s => .object [(keyP, .string file.path), (keyS, .string s)]
  | .buffer bytes => .object [(keyP, .string file.path), (keyB, .string (encode bytes))]

def filesJson : Option (List File) → List (JsString × Json)
  | some files => [(keyFiles, .array (files.map fileJson))]
  | none => []

def stateJson (x : SaveState) : Json :=
  .object ([(keyCmd, nullable x.cmd), (keyStdin, nullable x.stdin), (keyEnv, nullable x.env),
    (keyImage, nullable x.image)] ++ filesJson x.files)

theorem saveFile_eq (file : File) : saveFile file = some (fileJson file) := by
  unfold saveFile fileJson
  cases file.data with
  | text s => rfl
  | buffer bytes => simp [bufToBase64, btoa, latin1Bytes_latin1String]

theorem mapM_saveFile (files : List File) : files.mapM saveFile = some (files.map fileJson) := by
  induction files with
  | nil => rfl
  | cons file files ih => simp [saveFile_eq, ih]

theorem saveState_eq (x : SaveState) : saveState x = some (stateJson x) := by
  unfold saveState stateJson filesJson
  cases x.files with
  | none => rfl
  | some files => simp [mapM_saveFile]

def fileStrings (file : File) : List JsString :=
  file.path :: match file.data with
    | .text s => [s]
    | .buffer _ => []

def SaveState.strings (x : SaveState) : List JsString :=
  x.cmd.toList ++ x.stdin.toList ++ x.env.toList ++ x.image.toList ++
    (x.files.getD []).flatMap fileStrings

theorem fileJson_latin1 (file : File) :
    (fileJson file).AllLatin1 ↔ ∀ s ∈ fileStrings file, Latin1 s := by
  have hp : Latin1 keyP := latin1_of_ascii (by simp [keyP, ascii])
  have hs : Latin1 keyS := latin1_of_ascii (by simp [keyS, ascii])
  have hb : Latin1 keyB := latin1_of_ascii (by simp [keyB, ascii])
  unfold fileJson fileStrings
  cases file.data with
  | text s => simp [Json.AllLatin1, MembersLatin1, hp, hs]
  | buffer bytes => simp [Json.AllLatin1, MembersLatin1, hp, hb, latin1_of_ascii (encode_ascii bytes)]

theorem itemsLatin1_map (files : List File) :
    ItemsLatin1 (files.map fileJson) ↔ ∀ s ∈ files.flatMap fileStrings, Latin1 s := by
  induction files with
  | nil => simp [ItemsLatin1]
  | cons file files ih =>
    rw [List.map_cons, ItemsLatin1, fileJson_latin1, ih, List.flatMap_cons]
    simp only [List.mem_append, or_imp, forall_and]

theorem nullable_latin1 (s : Option JsString) :
    (nullable s).AllLatin1 ↔ ∀ t ∈ s.toList, Latin1 t := by
  cases s <;> simp [nullable, Json.AllLatin1]

theorem stateJson_latin1 (x : SaveState) :
    (stateJson x).AllLatin1 ↔ ∀ s ∈ x.strings, Latin1 s := by
  have h₁ : Latin1 keyCmd := latin1_of_ascii (by simp [keyCmd, ascii])
  have h₂ : Latin1 keyStdin := latin1_of_ascii (by simp [keyStdin, ascii])
  have h₃ : Latin1 keyEnv := latin1_of_ascii (by simp [keyEnv, ascii])
  have h₄ : Latin1 keyImage := latin1_of_ascii (by simp [keyImage, ascii])
  have h₅ : Latin1 keyFiles := latin1_of_ascii (by simp [keyFiles, ascii])
  have hfiles : MembersLatin1 (filesJson x.files) ↔
      ∀ s ∈ (x.files.getD []).flatMap fileStrings, Latin1 s := by
    cases x.files with
    | none => simp [filesJson, MembersLatin1]
    | some files =>
      simp only [filesJson, MembersLatin1, h₅, Json.AllLatin1, true_and, and_true, Option.getD_some]
      exact itemsLatin1_map files
  simp only [stateJson, Json.AllLatin1, List.cons_append, List.nil_append, MembersLatin1, h₁, h₂, h₃, h₄,
    nullable_latin1, hfiles, SaveState.strings, List.mem_append, or_imp, forall_and, true_and, and_assoc]

theorem bufFromBase64_encode (bs : Bytes) : bufFromBase64 (encode bs) = some bs := by
  have hbytes := latin1Bytes_latin1String bs
  unfold latin1Bytes at hbytes
  split_ifs at hbytes with hin
  rw [bufFromBase64, atob, decode_encode, Option.map_some, Option.map_some]
  exact hbytes

def loaded (file : File) : Json × Content := (.string file.path, file.data)

theorem checkFile_fileJson (file : File) : checkFile (fileJson file) = some (some (loaded file)) := by
  unfold fileJson loaded
  cases file.data with
  | text s => rfl
  | buffer bytes =>
    have hread : checkFile (.object [(keyP, .string file.path), (keyB, .string (encode bytes))]) =
        some ((bufFromBase64 (encode bytes)).map fun data => (.string file.path, .buffer data)) := rfl
    simp only [hread, bufFromBase64_encode, Option.map_some]

theorem checkItems_map (files : List File) :
    checkItems (files.map fileJson) = some (some (files.map loaded)) := by
  induction files with
  | nil => rfl
  | cons file files ih => simp [checkItems, checkFile_fileJson, ih]

theorem checkString_nullable (s : Option JsString) : checkString (some (nullable s)) = s := by
  cases s <;> rfl

def restored (more : Bool) (x : SaveState) : UrlHashState where
  help := false
  more := more
  cmd := x.cmd
  stdin := x.stdin
  env := x.env
  image := x.image
  files := x.files.map fun files => files.map loaded
  gist := none

theorem checkFiles_filesJson (files : Option (List File)) :
    checkFiles ((filesJson files).lookup keyFiles) = some (files.map fun files => files.map loaded) := by
  cases files with
  | none => rfl
  | some files => simp [filesJson, checkFiles, checkItems_map]

variable {parse : JsString → Option Json} {x : SaveState}

theorem members_stateJson (x : SaveState) :
    (stateJson x).member keyCmd = some (some (nullable x.cmd)) ∧
      (stateJson x).member keyStdin = some (some (nullable x.stdin)) ∧
      (stateJson x).member keyEnv = some (some (nullable x.env)) ∧
      (stateJson x).member keyImage = some (some (nullable x.image)) ∧
      (stateJson x).member keyFiles = some ((filesJson x.files).lookup keyFiles) :=
  ⟨rfl, rfl, rfl, rfl, rfl⟩

theorem fields_state (bs : Bytes) : ∃ rest,
    (ascii ['s', '='] ++ encode bs).splitOn 0x3d = ascii ['s'] :: digits bs :: rest := by
  have hdigits : (digits bs).splitOn 0x3d = [digits bs] := List.splitOn_eq_singleton (pad_not_mem bs)
  have hkey : (ascii ['s', '='] ++ encode bs).splitOn 0x3d = ascii ['s'] :: (encode bs).splitOn 0x3d :=
    List.splitOn_append_cons_self (ascii ['s']) (encode bs)
  rw [hkey, encode, padding]
  cases (3 - bs.length % 3) % 3 with
  | zero => exact ⟨[], by rw [List.replicate_zero, List.append_nil, hdigits]⟩
  | succ n =>
    refine ⟨(List.replicate n padChar).splitOn 0x3d, ?_⟩
    rw [List.replicate_succ]
    exact congrArg _ ((List.splitOn_append_cons_self (digits bs) _).trans (by rw [hdigits]; rfl))

theorem parsePart_state {bs : Bytes} (ret : UrlHashState)
    (hbs : latin1Bytes (stringify (stateJson x)) = some bs)
    (hparse : parse (stringify (stateJson x)) = some (stateJson x)) :
    parsePart parse ret (ascii ['s', '='] ++ encode bs) = some { ret with
      cmd := x.cmd
      stdin := x.stdin
      env := x.env
      image := x.image
      files := x.files.map fun files => files.map loaded } := by
  obtain ⟨rest, hfields⟩ := fields_state bs
  have hdecode : decodeBase64Json parse (some (digits bs)) = stateJson x := by
    simp [decodeBase64Json, atob, decode_digits, latin1String_of_bytes hbs, hparse]
  obtain ⟨hcmd, hstdin, henv, himage, hfiles⟩ := members_stateJson x
  have hhelp : ascii ['s'] ≠ ascii ['h', 'e', 'l', 'p'] := by decide
  have hmore : ascii ['s'] ≠ ascii ['m', 'o', 'r', 'e'] := by decide
  simp [parsePart, hfields, hhelp, hmore, hdecode, hcmd, hstdin, henv, himage, hfiles,
    checkFiles_filesJson, checkString_nullable]

theorem no_ampersand (bs : Bytes) : (0x26 : UInt16) ∉ ascii ['s', '='] ++ encode bs := by
  intro h
  rcases List.mem_append.mp h with h | h
  · exact absurd h (by decide)
  · rcases List.mem_append.mp h with h | h
    · obtain ⟨n, hn, he⟩ := List.mem_map.mp h
      exact absurd he ((by decide : ∀ n < 64, digit n ≠ 0x26) n (sextets_lt bs n hn))
    · exact absurd (List.mem_replicate.mp h).2 (by decide)

theorem parts_hash (more : Bool) (bs : Bytes) :
    ((ascii ['#'] ++ ((if more then moreX else []) ++ ascii ['s', '='] ++ encode bs)).drop 1).splitOn 0x26 =
      (if more then [ascii ['m', 'o', 'r', 'e', '=', 'x']] else []) ++ [ascii ['s', '='] ++ encode bs] := by
  have hpart : (ascii ['s', '='] ++ encode bs).splitOn 0x26 = [ascii ['s', '='] ++ encode bs] :=
    List.splitOn_eq_singleton (no_ampersand bs)
  cases more with
  | false => exact hpart
  | true =>
    have hsplit := List.splitOn_append_cons_self (a := (0x26 : UInt16))
      (ascii ['m', 'o', 'r', 'e', '=', 'x']) (ascii ['s', '='] ++ encode bs)
    rw [hpart] at hsplit
    exact hsplit

/-- The page that opens a link has the settings of the page that made it, exactly when no string of
them has a character above U+00FF other than surrogates that stand alone. -/
theorem link_restores_iff (parse : JsString → Option Json) (more : Bool) (x : SaveState)
    (hparse : ∀ v, saveState x = some v → parse (stringify v) = some v) :
    (∃ hash, onSaveToUrl more x = some hash ∧
        parseUrlHashState parse (ascii ['#'] ++ hash) = some (restored more x)) ↔
      ∀ s ∈ x.strings, Latin1 s := by
  have hparse := hparse (stateJson x) (saveState_eq x)
  rw [← stateJson_latin1, ← inRange_stringify, ← latin1Bytes_isSome]
  constructor
  · rintro ⟨hash, hsave, -⟩
    simp only [onSaveToUrl, saveState_eq, encodeUrlHashState, Option.bind_eq_bind, Option.bind_some,
      Option.bind_eq_some_iff] at hsave
    obtain ⟨t, ht, -⟩ := hsave
    obtain ⟨bs, hbs, -⟩ := btoa_eq_some.mp ht
    exact ⟨bs, hbs⟩
  · rintro ⟨bs, hbs⟩
    refine ⟨(if more then moreX else []) ++ ascii ['s', '='] ++ encode bs, ?_, ?_⟩
    · simp [onSaveToUrl, saveState_eq, encodeUrlHashState, btoa_eq_some.mpr ⟨bs, hbs, rfl⟩]
    · rw [parseUrlHashState, parts_hash]
      cases more with
      | false => exact congrArg (· >>= pure) (parsePart_state .initial hbs hparse)
      | true =>
        exact congrArg (· >>= pure) (parsePart_state { UrlHashState.initial with more := true } hbs hparse)

def latinState : SaveState where
  cmd := some [0x63, 0x61, 0x66, 0xe9]
  stdin := none
  env := some []
  image := none
  files := some [⟨[0x61], .buffer [0xff, 0x00]⟩, ⟨[0x62], .text [0x0a, 0xd800]⟩]

theorem link_restores_latin :
    ∃ hash, onSaveToUrl true latinState = some hash ∧
      parseUrlHashState (fun _ => saveState latinState) (ascii ['#'] ++ hash) =
        some (restored true latinState) := by
  refine (link_restores_iff _ true latinState (fun _ h => h)).mpr ?_
  decide +kernel

/-- The arrow is U+2192. -/
theorem arrow_throws : onSaveToUrl false ⟨some [0x2192], none, some [], none, some []⟩ = none := by
  decide +kernel

end RoundTrip

end ProgramExplorer.UrlState
