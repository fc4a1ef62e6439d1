import Mathlib.Data.List.TakeWhile
import ProgramExplorer.Combinators
import ProgramExplorer.Utf8

/-!
# The challenge of a registry

`parse_www_authenticate_bearer_header` of `peoci/src/ocidist.rs` looks for the
realm and the service in a `WWW-Authenticate` header. Its grammar for a
parameter is narrower than that of the header: a key is made of letters and a
value is not empty. The list of parameters ends, without an error, at the
first one that does not fit.
-/

set_option autoImplicit false

namespace ProgramExplorer.BearerChallenge
open ByteStrings Combinators

section Parser

/-- The header values of the `http` crate: `to_str` gives the text of the bytes
if all of it is in ASCII. -/
structure Http where
  HeaderValue : Type
  bytes : HeaderValue → Bytes
  toStr : HeaderValue → Option (List Char)
  toStr_eq_some : ∀ header text,
    toStr header = some text ↔ bytes header = Utf8.encode text ∧ ∀ c ∈ text, c.toNat < 128

variable (nom : Nom) (http : Http)

structure WWWAuthenticateBearer where
  realm : Option (List Char)
  service : Option (List Char)
  scope : Option (List Char)
  deriving DecidableEq

def WWWAuthenticateBearer.default : WWWAuthenticateBearer := ⟨none, none, none⟩

structure WWWAuthenticateBearerRealmService where
  realm : List Char
  service : List Char
  deriving DecidableEq

def bearer : List Char := ['B', 'e', 'a', 'r', 'e', 'r']

def realmKey : List Char := ['r', 'e', 'a', 'l', 'm']

def serviceKey : List Char := ['s', 'e', 'r', 'v', 'i', 'c', 'e']

def scopeKey : List Char := ['s', 'c', 'o', 'p', 'e']

def separator : Parser (List Char) := nom.terminated (nom.tag [',']) (nom.many0 (nom.tag [' ']))

def parameter : Parser (List Char × List Char) :=
  nom.separatedPair nom.alpha1 (nom.tag ['='])
    (nom.delimited (nom.char '"') (nom.takeUntil1 ['"']) (nom.char '"'))

def parser : Parser (List (List Char × List Char)) :=
  nom.preceded (nom.terminated (nom.tag bearer) (nom.many1 (nom.tag [' '])))
    (nom.separatedList0 (separator nom) (parameter nom))

def assign (ret : WWWAuthenticateBearer) (kv : List Char × List Char) : WWWAuthenticateBearer :=
  if kv.1 = realmKey then { ret with realm := some kv.2 }
  else if kv.1 = serviceKey then { ret with service := some kv.2 }
  else if kv.1 = scopeKey then { ret with scope := some kv.2 }
  else ret

def parseWwwAuthenticateBearerStr (input : List Char) : Option WWWAuthenticateBearer :=
  match parser nom input with
  | .error _ => none
  | .ok (_, found) => some (found.foldl assign .default)

def parseWwwAuthenticateBearerHeader (input : http.HeaderValue) :
    Option WWWAuthenticateBearerRealmService := do
  let res ← parseWwwAuthenticateBearerStr nom (← http.toStr input)
  some ⟨← res.realm, ← res.service⟩

end Parser

section Grammar

/-- A parameter as it may stand in the header; `gap` is the number of spaces
between the comma before it and its key. -/
structure Param where
  gap : ℕ
  key : List Char
  value : List Char
  deriving DecidableEq

def isKeyChar (c : Char) : Bool := c.isAlphanum || c = '-' || c = '_'

structure Param.WellFormed (p : Param) : Prop where
  key : ∀ c ∈ p.key, isKeyChar c = true
  value : '"' ∉ p.value

def Param.text (p : Param) : List Char := p.key ++ ('=' :: '"' :: (p.value ++ ['"']))

def following : List Param → List Char
  | [] => []
  | p :: ps => ',' :: (List.replicate p.gap ' ' ++ (p.text ++ following ps))

def parameters : List Param → List Char
  | [] => []
  | p :: ps => p.text ++ following ps

/-- The text of a challenge, with `spaces + 1` spaces after its scheme. -/
def challenge (spaces : ℕ) (ps : List Param) : List Char :=
  bearer ++ (List.replicate (spaces + 1) ' ' ++ parameters ps)

def Param.readable (p : Param) : Bool := p.key ≠ [] && p.key.all Char.isAlpha && p.value ≠ []

variable (nom : Nom) {p : Param} {ps : List Param}

/-- The text of a parameter after the letters that its key begins with. -/
def Param.afterLetters (p : Param) (rest : List Char) : List Char :=
  p.key.dropWhile Char.isAlpha ++ ('=' :: '"' :: (p.value ++ '"' :: rest))

theorem noLetter_afterLetters (p : Param) (rest : List Char) : NoLetter (p.afterLetters rest) := by
  intro c hc
  cases hd : p.key.dropWhile Char.isAlpha with
  | nil =>
    rw [Param.afterLetters, hd] at hc
    cases hc
    rfl
  | cons d ds =>
    rw [Param.afterLetters, hd] at hc
    cases hc
    have hhead := List.head?_dropWhile_not Char.isAlpha p.key
    rw [hd] at hhead
    simpa using hhead

theorem text_append (p : Param) (rest : List Char) :
    p.text ++ rest = p.key.takeWhile Char.isAlpha ++ p.afterLetters rest := by
  rw [Param.afterLetters, ← List.append_assoc, List.takeWhile_append_dropWhile]
  simp [Param.text]

theorem alpha1_key (h : p.key.takeWhile Char.isAlpha ≠ []) (rest : List Char) :
    nom.alpha1 (p.text ++ rest) = .ok (p.afterLetters rest, p.key.takeWhile Char.isAlpha) := by
  rw [text_append]
  exact nom.alpha1_append _ _ h (fun c hc => List.mem_takeWhile_imp hc) (noLetter_afterLetters p rest)

theorem alpha1_no_letter (h : p.key.takeWhile Char.isAlpha = []) (rest : List Char) :
    nom.alpha1 (p.text ++ rest) = .error .error := by
  rw [text_append, h, List.nil_append]
  exact nom.alpha1_error _ (noLetter_afterLetters p rest)

theorem parameter_ok (hp : p.WellFormed) (h : p.readable = true) (rest : List Char) :
    parameter nom (p.text ++ rest) = .ok (rest, (p.key, p.value)) := by
  obtain ⟨⟨hkey, halpha⟩, hvalue⟩ : (p.key ≠ [] ∧ ∀ c ∈ p.key, c.isAlpha = true) ∧ p.value ≠ [] := by
    simpa [Param.readable] using h
  have htake : p.key.takeWhile Char.isAlpha = p.key := List.takeWhile_eq_self_iff.mpr halpha
  have hdrop : p.key.dropWhile Char.isAlpha = [] := List.dropWhile_eq_nil_iff.mpr halpha
  have h₁ := alpha1_key nom (by rwa [htake]) rest
  rw [htake, Param.afterLetters, hdrop, List.nil_append] at h₁
  have h₂ := nom.tag_append ['='] ('"' :: (p.value ++ '"' :: rest))
  have h₃ := nom.takeUntil1_append '"' p.value rest hvalue hp.value
  rw [parameter, nom.separatedPair_eq, h₁]
  change (nom.tag ['='] (['='] ++ _) >>= _) = _
  rw [h₂]
  change (nom.delimited _ _ _ _ >>= _) = _
  rw [nom.delimited_eq, nom.char_cons]
  change ((nom.takeUntil1 ['"'] _ >>= _) >>= _) = _
  rw [h₃]
  change ((nom.char '"' _ >>= _) >>= _) = _
  rw [nom.char_cons]
  rfl

theorem isKeyChar_ne_equals {c : Char} (h : isKeyChar c = true) : c ≠ '=' := by
  rintro rfl
  exact absurd h (by decide)

theorem parameter_error (hp : p.WellFormed) (h : p.readable = false) (rest : List Char) :
    parameter nom (p.text ++ rest) = .error .error := by
  rw [parameter, nom.separatedPair_eq]
  by_cases htake : p.key.takeWhile Char.isAlpha = []
  · rw [alpha1_no_letter nom htake]
    rfl
  rw [alpha1_key nom htake]
  change (nom.tag ['='] (p.afterLetters rest) >>= _) = _
  cases hdrop : p.key.dropWhile Char.isAlpha with
  | cons c cs =>
    -- after the letters comes another character of the key
    have hc : c ∈ p.key := (List.dropWhile_sublist _).subset (hdrop ▸ List.mem_cons_self)
    have h₂ : nom.tag ['='] (p.afterLetters rest) = .error .error := by
      refine tag_singleton nom ?_
      rw [Param.afterLetters, hdrop]
      simpa using isKeyChar_ne_equals (hp.key c hc)
    rw [h₂]
    rfl
  | nil =>
    -- the key is fine, so the value is empty
    have halpha : ∀ c ∈ p.key, c.isAlpha = true := List.dropWhile_eq_nil_iff.mp hdrop
    have hkey : p.key ≠ [] := by
      rintro hnil
      simp [hnil] at htake
    have hvalue : p.value = [] := by
      by_contra hne
      have hread : p.readable = true := by simpa [Param.readable, hkey, hne] using halpha
      rw [h] at hread
      cases hread
    have h₂ : nom.tag ['='] (p.afterLetters rest) = .ok ('"' :: '"' :: rest, ['=']) := by
      rw [Param.afterLetters, hdrop, hvalue]
      exact nom.tag_append ['='] _
    rw [h₂]
    change (nom.delimited _ _ _ _ >>= _) = _
    rw [nom.delimited_eq, nom.char_cons]
    change ((nom.takeUntil1 ['"'] _ >>= _) >>= _) = _
    rw [nom.takeUntil1_error]
    rfl

theorem head_text (hp : p.WellFormed) (rest : List Char) : (p.text ++ rest).head? ≠ some ' ' := by
  cases hk : p.key with
  | nil => simp [Param.text, hk]
  | cons c cs =>
    have hc := hp.key c (hk ▸ List.mem_cons_self)
    simp only [Param.text, hk, List.cons_append, List.head?_cons, ne_eq, Option.some.injEq]
    rintro rfl
    exact absurd hc (by decide)

theorem separator_ok (hp : p.WellFormed) (rest : List Char) :
    separator nom (',' :: (List.replicate p.gap ' ' ++ (p.text ++ rest))) = .ok (p.text ++ rest, [',']) :=
  terminated_ok nom (nom.tag_append [','] _) (nom.many0_ok (repeats_tag nom (head_text hp rest) p.gap))

/-- After a parameter the parser goes on to the first one that it cannot read. -/
theorem separates_following (hps : ∀ p ∈ ps, p.WellFormed) :
    ∃ rest, Separates (separator nom) (parameter nom) (following ps)
      ((ps.takeWhile Param.readable).map fun p => (p.key, p.value)) rest := by
  induction ps with
  | nil => exact ⟨[], .nil (terminated_error nom (tag_singleton nom (by simp [following])))⟩
  | cons p ps ih =>
    obtain ⟨hp, hrest⟩ := List.forall_mem_cons.mp hps
    have hsep := separator_ok nom hp (following ps)
    cases hr : p.readable with
    | true =>
      obtain ⟨rest, hloop⟩ := ih hrest
      rw [List.takeWhile_cons_of_pos hr]
      refine ⟨rest, .more hsep ?_ (parameter_ok nom hp hr _) ?_ hloop⟩
      · simp only [following, List.length_cons, List.length_append]
        omega
      · simp only [Param.text, List.length_append, List.length_cons]
        omega
    | false =>
      rw [List.takeWhile_cons_of_neg (by simp [hr])]
      exact ⟨_, .stop hsep (parameter_error nom hp hr _)⟩

/-- The parser reads a challenge up to the first parameter that it cannot read. -/
theorem parser_challenge (spaces : ℕ) (hne : ps ≠ []) (hps : ∀ p ∈ ps, p.WellFormed) :
    ∃ rest, parser nom (challenge spaces ps) =
      .ok (rest, (ps.takeWhile Param.readable).map fun p => (p.key, p.value)) := by
  obtain ⟨p, ps, rfl⟩ := List.exists_cons_of_ne_nil hne
  obtain ⟨hp, hrest⟩ := List.forall_mem_cons.mp hps
  have hspaces := nom.many1_ok (nom.tag_append [' '] (List.replicate spaces ' ' ++ (p.text ++ following ps)))
    (repeats_tag nom (head_text hp _) spaces)
  have hscheme := preceded_ok nom (q := nom.separatedList0 (separator nom) (parameter nom))
    (terminated_ok nom (nom.tag_append bearer _) hspaces)
  change ∃ rest, nom.preceded _ _
    (bearer ++ ([' '] ++ (List.replicate spaces ' ' ++ (p.text ++ following ps)))) = _
  rw [hscheme]
  cases hr : p.readable with
  | true =>
    obtain ⟨rest, hloop⟩ := separates_following nom hrest
    rw [List.takeWhile_cons_of_pos hr]
    exact ⟨rest, nom.separatedList0_ok (parameter_ok nom hp hr _) hloop⟩
  | false =>
    rw [List.takeWhile_cons_of_neg (by simp [hr])]
    exact ⟨_, nom.separatedList0_nil _ (parameter_error nom hp hr _)⟩

end Grammar

section Result

variable {ret : WWWAuthenticateBearer} {found : List (List Char × List Char)} {key v : List Char}
  {field : WWWAuthenticateBearer → Option (List Char)}

/-- The fields that the loop over the parameters fills, each from the key of its name. -/
def FilledFrom (key : List Char) (field : WWWAuthenticateBearer → Option (List Char)) : Prop :=
  ∀ ret kv, field (assign ret kv) = if kv.1 = key then some kv.2 else field ret

theorem realm_filled : FilledFrom realmKey WWWAuthenticateBearer.realm := by
  intro ret kv
  unfold assign
  split_ifs <;> rfl

theorem service_filled : FilledFrom serviceKey WWWAuthenticateBearer.service := by
  intro ret kv
  unfold assign
  split_ifs with hrealm hservice
  · rw [hrealm] at hservice
    exact absurd hservice (by decide)
  all_goals rfl

theorem foldl_of_not_mem (h : FilledFrom key field) (hkey : key ∉ found.map Prod.fst) :
    field (found.foldl assign ret) = field ret := by
  induction found generalizing ret with
  | nil => rfl
  | cons kv found ih =>
    rw [List.map_cons, List.mem_cons, not_or] at hkey
    rw [List.foldl_cons, ih hkey.2, h, if_neg (Ne.symm hkey.1)]

theorem foldl_of_mem (h : FilledFrom key field) (hnodup : (found.map Prod.fst).Nodup)
    (hmem : (key, v) ∈ found) : field (found.foldl assign ret) = some v := by
  induction found generalizing ret with
  | nil => cases hmem
  | cons kv found ih =>
    rw [List.map_cons, List.nodup_cons] at hnodup
    rw [List.foldl_cons]
    rcases List.mem_cons.mp hmem with rfl | hmem
    · rw [foldl_of_not_mem h hnodup.1, h, if_pos rfl]
    · exact ih hnodup.2 hmem

variable {spaces : ℕ} {ps : List Param} {p q : Param}

theorem takeWhile_nodup (h : (ps.map Param.key).Nodup) :
    (((ps.takeWhile Param.readable).map fun p => (p.key, p.value)).map Prod.fst).Nodup := by
  rw [List.map_map]
  exact ((List.takeWhile_sublist _).map _).nodup h

/-- The field of a key is filled if its parameter is among those that are read. -/
theorem foldl_eq_some_iff (h : FilledFrom p.key field) (hnodup : (ps.map Param.key).Nodup)
    (hp : p ∈ ps) (hnone : field .default = none) :
    field (((ps.takeWhile Param.readable).map fun p => (p.key, p.value)).foldl assign .default) =
      some p.value ↔ p ∈ ps.takeWhile Param.readable := by
  constructor
  · intro hsome
    by_contra hmem
    have hkey : p.key ∉ ((ps.takeWhile Param.readable).map fun p => (p.key, p.value)).map Prod.fst := by
      rw [List.map_map]
      rintro hk
      obtain ⟨p', hp', heq⟩ := List.mem_map.mp hk
      -- no other parameter has this key
      have hsame := List.inj_on_of_nodup_map hnodup ((List.takeWhile_sublist _).subset hp') hp heq
      exact hmem (hsame ▸ hp')
    rw [foldl_of_not_mem h hkey, hnone] at hsome
    cases hsome
  · intro hmem
    exact foldl_of_mem h (takeWhile_nodup hnodup) (List.mem_map.mpr ⟨p, hmem, rfl⟩)

/-- The realm and the service of a challenge are found exactly if its text is in
ASCII and both stand before the first parameter that the grammar does not know. -/
theorem challenge_found_iff (nom : Nom) (http : Http) {header : http.HeaderValue}
    (htext : http.bytes header = Utf8.encode (challenge spaces ps))
    (hps : ∀ p ∈ ps, p.WellFormed) (hnodup : (ps.map Param.key).Nodup) (hp : p ∈ ps)
    (hq : q ∈ ps) (hrealm : p.key = realmKey) (hservice : q.key = serviceKey) :
    parseWwwAuthenticateBearerHeader nom http header = some ⟨p.value, q.value⟩ ↔
      (∀ c ∈ challenge spaces ps, c.toNat < 128) ∧
        p ∈ ps.takeWhile Param.readable ∧ q ∈ ps.takeWhile Param.readable := by
  by_cases hascii : ∀ c ∈ challenge spaces ps, c.toNat < 128
  · obtain ⟨rest, hparser⟩ := parser_challenge nom spaces (List.ne_nil_of_mem hp) hps
    have hstr : http.toStr header = some (challenge spaces ps) :=
      (http.toStr_eq_some header _).mpr ⟨htext, hascii⟩
    rw [parseWwwAuthenticateBearerHeader, hstr, Option.bind_eq_bind, Option.bind_some,
      parseWwwAuthenticateBearerStr, hparser]
    rw [← foldl_eq_some_iff (hrealm ▸ realm_filled) hnodup hp rfl,
      ← foldl_eq_some_iff (hservice ▸ service_filled) hnodup hq rfl, and_iff_right hascii]
    simp [Option.bind_eq_some_iff]
  · have hstr : http.toStr header = none := by
      rw [Option.eq_none_iff_forall_not_mem]
      intro text hsome
      obtain ⟨hbytes, htextAscii⟩ := (http.toStr_eq_some header text).mp hsome
      -- one text at most has these bytes
      obtain rfl : text = challenge spaces ps := Utf8.encode_injective (hbytes.symm.trans htext)
      exact hascii htextAscii
    rw [parseWwwAuthenticateBearerHeader, hstr]
    exact iff_of_false (by simp) fun h => hascii h.1

structure HeaderValue where
  bytes : Bytes
  valid : ∀ b ∈ bytes, 32 ≤ b.toNat ∧ b.toNat ≠ 127 ∨ b.toNat = 9

def visibleAscii (b : UInt8) : Bool := 32 ≤ b.toNat && b.toNat < 127 || b.toNat = 9

def HeaderValue.toStr (h : HeaderValue) : Option (List Char) :=
  if h.bytes.all visibleAscii then some (h.bytes.map fun b => Char.ofNat b.toNat) else none

theorem all_visibleAscii {header : HeaderValue} :
    header.bytes.all visibleAscii = true ↔ ∀ b ∈ header.bytes, b.toNat < 128 := by
  refine List.all_eq_true.trans (forall₂_congr fun b hb => ?_)
  have hvalid := header.valid b hb
  simp only [visibleAscii, Bool.or_eq_true, Bool.and_eq_true, decide_eq_true_eq]
  omega

theorem HeaderValue.toStr_eq_some (header : HeaderValue) (text : List Char) :
    header.toStr = some text ↔ header.bytes = Utf8.encode text ∧ ∀ c ∈ text, c.toNat < 128 := by
  have hascii : (∀ b ∈ header.bytes, b.toNat < 128) → Utf8.decode header.bytes =
      some (header.bytes.map fun b => Char.ofNat b.toNat) := Utf8.decode_ascii
  rw [HeaderValue.toStr, Option.ite_none_right_eq_some, all_visibleAscii, Option.some.injEq]
  constructor
  · rintro ⟨hbytes, rfl⟩
    have hencode := Utf8.decode_eq_some_iff.mp (hascii hbytes)
    exact ⟨hencode, Utf8.ascii_encode_iff.mp (hencode ▸ hbytes)⟩
  · rintro ⟨hencode, htext⟩
    have hbytes : ∀ b ∈ header.bytes, b.toNat < 128 := hencode ▸ Utf8.ascii_encode_iff.mpr htext
    have hdecode := hascii hbytes
    rw [hencode, Utf8.decode_encode, ← hencode] at hdecode
    exact ⟨hbytes, (Option.some.inj hdecode).symm⟩

def visible : Http := ⟨HeaderValue, HeaderValue.bytes, HeaderValue.toStr, HeaderValue.toStr_eq_some⟩

def headerOf (text : List Char)
    (h : (Utf8.encode text).all (fun b => 32 ≤ b.toNat ∧ b.toNat ≠ 127 ∨ b.toNat = 9) = true) :
    HeaderValue :=
  ⟨Utf8.encode text, fun b hb => of_decide_eq_true (List.all_eq_true.mp h b hb)⟩

def realm : Param := ⟨0, realmKey, ['r']⟩

def service : Param := ⟨1, serviceKey, ['s']⟩

def errorCode : Param := ⟨0, ['e', '-', 'c'], ['x']⟩

theorem wellFormed_iff : p.key.all isKeyChar = true ∧ '"' ∉ p.value ↔ p.WellFormed :=
  ⟨fun h => ⟨List.all_eq_true.mp h.1, h.2⟩, fun h => ⟨List.all_eq_true.mpr h.key, h.value⟩⟩

instance Param.decidableWellFormed (p : Param) : Decidable p.WellFormed :=
  decidable_of_iff _ wellFormed_iff

theorem parameters_after_service_found :
    parseWwwAuthenticateBearerHeader complete visible
        (headerOf (challenge 0 [realm, service, errorCode]) (by decide +kernel)) =
      some ⟨['r'], ['s']⟩ := by
  have hascii : (challenge 0 [realm, service, errorCode]).all (fun c => c.toNat < 128) = true := by
    decide +kernel
  refine (challenge_found_iff complete visible (p := realm) (q := service) rfl ?_ ?_ ?_ ?_ rfl rfl).mpr ?_
  · decide
  · decide
  · decide
  · decide
  · exact ⟨fun c hc => of_decide_eq_true (List.all_eq_true.mp hascii c hc), by decide, by decide⟩

/-- A key with a hyphen before the realm hides both values. -/
theorem hyphen_hides_realm :
    (∀ p ∈ [errorCode, realm, service], p.WellFormed) ∧
      ([errorCode, realm, service].map Param.key).Nodup ∧
      parseWwwAuthenticateBearerHeader complete visible
        (headerOf (challenge 0 [errorCode, realm, service]) (by decide +kernel)) = none := by
  refine ⟨by decide, by decide, by decide +kernel⟩

end Result

end ProgramExplorer.BearerChallenge
