import ProgramExplorer.Utf16

/-!
# Base64 as browsers read it

`btoa` and `atob` of the WHATWG standards. The encoder pads its output; the
decoder drops white space and takes text with its padding or without. What
has been encoded is decoded again in both forms.
-/

set_option autoImplicit false

namespace ProgramExplorer.Base64
open ByteStrings Utf16

section Definitions

def digit (n : ℕ) : UInt16 :=
  if n < 26 then UInt16.ofNat (n + 0x41)
  else if n < 52 then UInt16.ofNat (n - 26 + 0x61)
  else if n < 62 then UInt16.ofNat (n - 52 + 0x30)
  else if n = 62 then 0x2b
  else 0x2f

def value? (u : UInt16) : Option ℕ :=
  let n := u.toNat
  if 0x41 ≤ n ∧ n ≤ 0x5a then some (n - 0x41)
  else if 0x61 ≤ n ∧ n ≤ 0x7a then some (n - 0x61 + 26)
  else if 0x30 ≤ n ∧ n ≤ 0x39 then some (n - 0x30 + 52)
  else if n = 0x2b then some 62
  else if n = 0x2f then some 63
  else none

def sextets : Bytes → List ℕ
  | [] => []
  | [a] => [a.toNat / 4, a.toNat % 4 * 16]
  | [a, b] => [a.toNat / 4, a.toNat % 4 * 16 + b.toNat / 16, b.toNat % 16 * 4]
  | a :: b :: c :: rest =>
    a.toNat / 4 :: (a.toNat % 4 * 16 + b.toNat / 16) :: (b.toNat % 16 * 4 + c.toNat / 64) ::
      c.toNat % 64 :: sextets rest

/-- The bytes of a sequence of six bit numbers; what is left over at the end is dropped. -/
def octets : List ℕ → Bytes
  | a :: b :: c :: d :: rest =>
    UInt8.ofNat (a * 4 + b / 16) :: UInt8.ofNat (b % 16 * 16 + c / 4) ::
      UInt8.ofNat (c % 4 * 64 + d) :: octets rest
  | [a, b, c] => [UInt8.ofNat (a * 4 + b / 16), UInt8.ofNat (b % 16 * 16 + c / 4)]
  | [a, b] => [UInt8.ofNat (a * 4 + b / 16)]
  | _ => []

def padChar : UInt16 := 0x3d

def digits (bs : Bytes) : JsString := (sextets bs).map digit

def padding (bs : Bytes) : JsString := List.replicate ((3 - bs.length % 3) % 3) padChar

def encode (bs : Bytes) : JsString := digits bs ++ padding bs

def IsSpace (u : UInt16) : Prop := u = 0x20 ∨ u = 0x09 ∨ u = 0x0a ∨ u = 0x0c ∨ u = 0x0d

instance (u : UInt16) : Decidable (IsSpace u) := inferInstanceAs (Decidable (_ ∨ _))

def dropPadding (s : JsString) : JsString :=
  if s.length % 4 ≠ 0 then s
  else if s.drop (s.length - 2) = [padChar, padChar] then s.dropLast.dropLast
  else if s.getLast? = some padChar then s.dropLast
  else s

def decode (s : JsString) : Option Bytes :=
  let s := dropPadding (s.filter (¬ IsSpace ·))
  if s.length % 4 = 1 then none
  else (s.mapM value?).map octets

def InRange (s : JsString) : Prop := ∀ u ∈ s, u.toNat ≤ 0xff

instance (s : JsString) : Decidable (InRange s) := List.decidableBAll _ s

def latin1Bytes (s : JsString) : Option Bytes :=
  if InRange s then some (s.map fun u => UInt8.ofNat u.toNat) else none

def latin1String (bs : Bytes) : JsString := bs.map fun b => UInt16.ofNat b.toNat

def btoa (s : JsString) : Option JsString := (latin1Bytes s).map encode

def atob (s : JsString) : Option JsString := (decode s).map latin1String

end Definitions

section RoundTrip

theorem value?_digit : ∀ n < 64, value? (digit n) = some n := by
  decide

theorem digit_ne_pad : ∀ n < 64, digit n ≠ padChar := by
  decide

theorem digit_not_space : ∀ n < 64, ¬ IsSpace (digit n) := by
  decide

theorem sextets_lt (bs : Bytes) : ∀ n ∈ sextets bs, n < 64 := by
  induction bs using sextets.induct with
  | case1 => simp [sextets]
  | case2 a =>
    have ha := a.toNat_lt
    simp only [sextets, List.mem_cons, List.not_mem_nil, or_false]
    rintro n (rfl | rfl) <;> omega
  | case3 a b =>
    have ha := a.toNat_lt
    have hb := b.toNat_lt
    simp only [sextets, List.mem_cons, List.not_mem_nil, or_false]
    rintro n (rfl | rfl | rfl) <;> omega
  | case4 a b c rest ih =>
    have ha := a.toNat_lt
    have hb := b.toNat_lt
    have hc := c.toNat_lt
    simp only [sextets, List.mem_cons]
    rintro n (rfl | rfl | rfl | rfl | hn)
    · omega
    · omega
    · omega
    · omega
    · exact ih n hn

theorem ofNat_eq {n : ℕ} {b : UInt8} (h : n = b.toNat) : UInt8.ofNat n = b := by
  rw [h, UInt8.ofNat_toNat]

theorem octets_sextets (bs : Bytes) : octets (sextets bs) = bs := by
  induction bs using sextets.induct with
  | case1 => rfl
  | case2 a =>
    have ha := a.toNat_lt
    simp only [sextets, octets]
    rw [ofNat_eq (show _ = a.toNat by omega)]
  | case3 a b =>
    have ha := a.toNat_lt
    have hb := b.toNat_lt
    simp only [sextets, octets]
    rw [ofNat_eq (show _ = a.toNat by omega), ofNat_eq (show _ = b.toNat by omega)]
  | case4 a b c rest ih =>
    have ha := a.toNat_lt
    have hb := b.toNat_lt
    have hc := c.toNat_lt
    simp only [sextets, octets, ih]
    rw [ofNat_eq (show _ = a.toNat by omega), ofNat_eq (show _ = b.toNat by omega),
      ofNat_eq (show _ = c.toNat by omega)]

theorem sextets_length (bs : Bytes) :
    (sextets bs).length % 4 = if bs.length % 3 = 0 then 0 else bs.length % 3 + 1 := by
  induction bs using sextets.induct with
  | case1 => rfl
  | case2 a => rfl
  | case3 a b => rfl
  | case4 a b c rest ih =>
    simp only [sextets, List.length_cons]
    rw [show rest.length + 1 + 1 + 1 = rest.length + 3 by omega, Nat.add_mod_right]
    omega

theorem mapM_value? {ns : List ℕ} (h : ∀ n ∈ ns, n < 64) : (ns.map digit).mapM value? = some ns := by
  induction ns with
  | nil => rfl
  | cons n ns ih =>
    have ih := ih fun n' hn' => h n' (by simp [hn'])
    simp [value?_digit n (h n (by simp)), ih]

theorem mem_digits {bs : Bytes} {u : UInt16} (h : u ∈ digits bs) : u ≠ padChar ∧ ¬ IsSpace u := by
  obtain ⟨n, hn, rfl⟩ := List.mem_map.mp h
  have hlt := sextets_lt bs n hn
  exact ⟨digit_ne_pad n hlt, digit_not_space n hlt⟩

theorem pad_not_mem (bs : Bytes) : padChar ∉ digits bs := fun h => (mem_digits h).1 rfl

theorem digits_length (bs : Bytes) :
    (digits bs).length % 4 = if bs.length % 3 = 0 then 0 else bs.length % 3 + 1 := by
  rw [digits, List.length_map, sextets_length]

theorem dropPadding_digits (bs : Bytes) : dropPadding (digits bs) = digits bs := by
  have hpad := pad_not_mem bs
  have htwo : (digits bs).drop ((digits bs).length - 2) ≠ [padChar, padChar] := by
    intro h
    exact hpad (List.mem_of_mem_drop (by rw [h]; simp))
  have hlast : (digits bs).getLast? ≠ some padChar := fun h => hpad (List.mem_of_getLast? h)
  simp [dropPadding, htwo, hlast]

theorem dropPadding_encode (bs : Bytes) : dropPadding (encode bs) = digits bs := by
  have hlen := digits_length bs
  have hlt := Nat.mod_lt bs.length (show 0 < 3 by decide)
  unfold encode
  obtain h | h | h : bs.length % 3 = 0 ∨ bs.length % 3 = 1 ∨ bs.length % 3 = 2 := by omega
  · simpa [padding, h] using dropPadding_digits bs
  · have hp : padding bs = [padChar, padChar] := by simp [padding, h]
    have hlen' : (digits bs ++ [padChar, padChar]).length % 4 = 0 := by
      rw [h, if_neg (by decide)] at hlen
      simp only [List.length_append, List.length_cons, List.length_nil]
      omega
    have hdrop : (digits bs ++ [padChar, padChar]).drop ((digits bs ++ [padChar, padChar]).length - 2) =
        [padChar, padChar] := by
      simp
    rw [hp, dropPadding, if_neg (by omega), if_pos hdrop]
    simp
  · have hp : padding bs = [padChar] := by simp [padding, h]
    rw [h, if_neg (by decide)] at hlen
    obtain ⟨front, u, hfront⟩ := List.eq_nil_or_concat (digits bs) |>.resolve_left
      (by intro hn; simp [hn] at hlen)
    rw [List.concat_eq_append] at hfront
    have hne : u ≠ padChar := fun hu => pad_not_mem bs (by simp [hfront, hu])
    have hlen' : (digits bs ++ [padChar]).length % 4 = 0 := by
      simp only [List.length_append, List.length_cons, List.length_nil]
      omega
    have hdrop : (digits bs ++ [padChar]).drop ((digits bs ++ [padChar]).length - 2) ≠
        [padChar, padChar] := by
      simp [hfront, hne]
    rw [hp, dropPadding, if_neg (by omega), if_neg hdrop]
    simp

theorem filter_space {s : JsString} (h : ∀ u ∈ s, ¬ IsSpace u) : s.filter (¬ IsSpace ·) = s := by
  rw [List.filter_eq_self]
  simpa using h

theorem decode_of_dropPadding {s : JsString} {bs : Bytes} (h : ∀ u ∈ s, ¬ IsSpace u)
    (hs : dropPadding s = digits bs) : decode s = some bs := by
  have hlen := digits_length bs
  have hone : (digits bs).length % 4 ≠ 1 := by
    split_ifs at hlen <;> omega
  simp only [decode, filter_space h, hs, if_neg hone]
  rw [digits, mapM_value? (sextets_lt bs), Option.map_some, octets_sextets]

theorem decode_digits (bs : Bytes) : decode (digits bs) = some bs :=
  decode_of_dropPadding (fun _ hu => (mem_digits hu).2) (dropPadding_digits bs)

theorem decode_encode (bs : Bytes) : decode (encode bs) = some bs := by
  refine decode_of_dropPadding ?_ (dropPadding_encode bs)
  intro u hu
  rcases List.mem_append.mp hu with hu | hu
  · exact (mem_digits hu).2
  · rw [(List.mem_replicate.mp hu).2]
    decide

theorem latin1String_of_bytes {s : JsString} {bs : Bytes} (h : latin1Bytes s = some bs) :
    latin1String bs = s := by
  unfold latin1Bytes at h
  split_ifs at h with hs
  cases h
  rw [latin1String, List.map_map]
  refine (List.map_congr_left ?_).trans (List.map_id s)
  intro u hu
  have hle := hs u hu
  have hbyte : (UInt8.ofNat u.toNat).toNat = u.toNat := by
    rw [UInt8.toNat_ofNat']
    omega
  simp only [Function.comp_apply, hbyte, UInt16.ofNat_toNat, id]

theorem latin1Bytes_latin1String (bs : Bytes) : latin1Bytes (latin1String bs) = some bs := by
  have hunit : ∀ b : UInt8, (UInt16.ofNat b.toNat).toNat = b.toNat := by
    intro b
    have := b.toNat_lt
    rw [UInt16.toNat_ofNat']
    omega
  have hall : InRange (latin1String bs) := by
    intro u hu
    obtain ⟨b, -, rfl⟩ := List.mem_map.mp hu
    have := b.toNat_lt
    rw [hunit]
    omega
  rw [latin1Bytes, if_pos hall, latin1String, List.map_map]
  congr 1
  refine (List.map_congr_left ?_).trans (List.map_id bs)
  intro b _
  simp only [Function.comp_apply, hunit, UInt8.ofNat_toNat, id]

end RoundTrip

end ProgramExplorer.Base64
