import ProgramExplorer.ByteStrings

/-!
# Decoding UTF-8

The decoder of the WHATWG Encoding standard with the error mode `fatal`: a
state machine that takes one byte at a time. It accepts exactly the encodings
of sequences of characters. `textDecode` also takes away a byte order mark at
the start, as a `TextDecoder` does unless told otherwise.
-/

set_option autoImplicit false

namespace ProgramExplorer.Utf8
open ByteStrings

def encode (cs : List Char) : Bytes := cs.flatMap String.utf8EncodeChar

structure Decoder where
  codePoint : ℕ
  seen : ℕ
  needed : ℕ
  lower : ℕ
  upper : ℕ

def Decoder.initial : Decoder := ⟨0, 0, 0, 0x80, 0xbf⟩

/-- The handler for one byte: an error, or a new state and perhaps a character. -/
def Decoder.step (d : Decoder) (byte : ℕ) : Option (Decoder × Option Char) :=
  if d.needed = 0 then
    if byte ≤ 0x7f then some (d, some (Char.ofNat byte))
    else if 0xc2 ≤ byte ∧ byte ≤ 0xdf then
      some ({ d with needed := 1, codePoint := byte % 0x20 }, none)
    else if 0xe0 ≤ byte ∧ byte ≤ 0xef then
      some ({ d with
        lower := if byte = 0xe0 then 0xa0 else d.lower
        upper := if byte = 0xed then 0x9f else d.upper
        needed := 2
        codePoint := byte % 0x10 }, none)
    else if 0xf0 ≤ byte ∧ byte ≤ 0xf4 then
      some ({ d with
        lower := if byte = 0xf0 then 0x90 else d.lower
        upper := if byte = 0xf4 then 0x8f else d.upper
        needed := 3
        codePoint := byte % 0x08 }, none)
    else none
  else if d.lower ≤ byte ∧ byte ≤ d.upper then
    let codePoint := d.codePoint * 0x40 + byte % 0x40
    if d.seen + 1 = d.needed then some (.initial, some (Char.ofNat codePoint))
    else some (⟨codePoint, d.seen + 1, d.needed, 0x80, 0xbf⟩, none)
  else none

def Decoder.run (d : Decoder) : Bytes → Option (List Char)
  | [] => if d.needed = 0 then some [] else none
  | b :: bs =>
    match d.step b.toNat with
    | none => none
    | some (d', none) => d'.run bs
    | some (d', some c) => (d'.run bs).map (c :: ·)

def decode (bs : Bytes) : Option (List Char) := Decoder.initial.run bs

def byteOrderMark : Char := Char.ofNat 0xfeff

def dropMark : List Char → List Char
  | [] => []
  | c :: cs => if c = byteOrderMark then cs else c :: cs

def textDecode (bs : Bytes) : Option (List Char) := (decode bs).map dropMark

section Exact

inductive Encodes : Bytes → ℕ → Prop
  | one {b : UInt8} (h : b.toNat ≤ 0x7f) : Encodes [b] b.toNat
  | two {b b₁ : UInt8} (h : 0xc2 ≤ b.toNat ∧ b.toNat ≤ 0xdf) (h₁ : 0x80 ≤ b₁.toNat ∧ b₁.toNat ≤ 0xbf) :
      Encodes [b, b₁] (b.toNat % 0x20 * 0x40 + b₁.toNat % 0x40)
  | three {b b₁ b₂ : UInt8} (h : 0xe0 ≤ b.toNat ∧ b.toNat ≤ 0xef)
      (h₁ : (if b.toNat = 0xe0 then 0xa0 else 0x80) ≤ b₁.toNat ∧
        b₁.toNat ≤ if b.toNat = 0xed then 0x9f else 0xbf)
      (h₂ : 0x80 ≤ b₂.toNat ∧ b₂.toNat ≤ 0xbf) :
      Encodes [b, b₁, b₂] ((b.toNat % 0x10 * 0x40 + b₁.toNat % 0x40) * 0x40 + b₂.toNat % 0x40)
  | four {b b₁ b₂ b₃ : UInt8} (h : 0xf0 ≤ b.toNat ∧ b.toNat ≤ 0xf4)
      (h₁ : (if b.toNat = 0xf0 then 0x90 else 0x80) ≤ b₁.toNat ∧
        b₁.toNat ≤ if b.toNat = 0xf4 then 0x8f else 0xbf)
      (h₂ : 0x80 ≤ b₂.toNat ∧ b₂.toNat ≤ 0xbf) (h₃ : 0x80 ≤ b₃.toNat ∧ b₃.toNat ≤ 0xbf) :
      Encodes [b, b₁, b₂, b₃]
        (((b.toNat % 0x08 * 0x40 + b₁.toNat % 0x40) * 0x40 + b₂.toNat % 0x40) * 0x40 +
          b₃.toNat % 0x40)

theorem run_tail {d : Decoder} (h : d.needed ≠ 0) (b : UInt8) (bs : Bytes) :
    d.run (b :: bs) =
      if d.lower ≤ b.toNat ∧ b.toNat ≤ d.upper then
        if d.seen + 1 = d.needed then
          (decode bs).map (Char.ofNat (d.codePoint * 0x40 + b.toNat % 0x40) :: ·)
        else Decoder.run ⟨d.codePoint * 0x40 + b.toNat % 0x40, d.seen + 1, d.needed, 0x80, 0xbf⟩ bs
      else none := by
  simp only [Decoder.run, Decoder.step, h, if_false]
  split_ifs <;> rfl

theorem decode_cons (b : UInt8) (bs : Bytes) :
    decode (b :: bs) =
      if b.toNat ≤ 0x7f then (decode bs).map (Char.ofNat b.toNat :: ·)
      else if 0xc2 ≤ b.toNat ∧ b.toNat ≤ 0xdf then
        Decoder.run ⟨b.toNat % 0x20, 0, 1, 0x80, 0xbf⟩ bs
      else if 0xe0 ≤ b.toNat ∧ b.toNat ≤ 0xef then
        Decoder.run ⟨b.toNat % 0x10, 0, 2, if b.toNat = 0xe0 then 0xa0 else 0x80,
          if b.toNat = 0xed then 0x9f else 0xbf⟩ bs
      else if 0xf0 ≤ b.toNat ∧ b.toNat ≤ 0xf4 then
        Decoder.run ⟨b.toNat % 0x08, 0, 3, if b.toNat = 0xf0 then 0x90 else 0x80,
          if b.toNat = 0xf4 then 0x8f else 0xbf⟩ bs
      else none := by
  simp only [decode, Decoder.run, Decoder.step, Decoder.initial, if_true]
  split_ifs <;> rfl

theorem decode_append {front : Bytes} {n : ℕ} (h : Encodes front n) (bs : Bytes) :
    decode (front ++ bs) = (decode bs).map (Char.ofNat n :: ·) := by
  cases h with
  | one h => rw [List.singleton_append, decode_cons, if_pos h]
  | two h h₁ =>
    rw [List.cons_append, decode_cons, if_neg (by omega), if_pos h, List.singleton_append,
      run_tail (by simp), if_pos h₁, if_pos rfl]
  | three h h₁ h₂ =>
    rw [List.cons_append, decode_cons, if_neg (by omega), if_neg (by omega), if_pos h,
      List.cons_append, run_tail (by simp), if_pos h₁, if_neg (by simp), List.singleton_append,
      run_tail (by simp), if_pos h₂, if_pos rfl]
  | four h h₁ h₂ h₃ =>
    rw [List.cons_append, decode_cons, if_neg (by omega), if_neg (by omega), if_neg (by omega),
      if_pos h, List.cons_append, run_tail (by simp), if_pos h₁, if_neg (by simp), List.cons_append,
      run_tail (by simp), if_pos h₂, if_neg (by simp), List.singleton_append, run_tail (by simp),
      if_pos h₃, if_pos rfl]

theorem run_nil_tail {d : Decoder} (h : d.needed ≠ 0) : d.run [] = none := by
  rw [Decoder.run, if_neg h]

/-- A decoder that accepts in the middle of a character finds one more byte,
and the byte lies in its range. -/
theorem run_eq_some {d : Decoder} {bs : Bytes} {cs : List Char} (hd : d.needed ≠ 0) (h : d.run bs = some cs) :
    ∃ b₁ bs₁, bs = b₁ :: bs₁ ∧ d.lower ≤ b₁.toNat ∧ b₁.toNat ≤ d.upper ∧
      (if d.seen + 1 = d.needed then
        (decode bs₁).map (Char.ofNat (d.codePoint * 0x40 + b₁.toNat % 0x40) :: ·)
      else Decoder.run ⟨d.codePoint * 0x40 + b₁.toNat % 0x40, d.seen + 1, d.needed, 0x80, 0xbf⟩ bs₁) =
        some cs := by
  cases bs with
  | nil =>
    rw [run_nil_tail hd] at h
    cases h
  | cons b₁ bs₁ =>
    rw [run_tail hd] at h
    by_cases hr : d.lower ≤ b₁.toNat ∧ b₁.toNat ≤ d.upper
    · rw [if_pos hr] at h
      exact ⟨b₁, bs₁, rfl, hr.1, hr.2, h⟩
    · rw [if_neg hr] at h
      cases h

theorem decode_cons_eq_some {b : UInt8} {bs : Bytes} {cs : List Char} (h : decode (b :: bs) = some cs) :
    ∃ front n rest cs', b :: bs = front ++ rest ∧ Encodes front n ∧ decode rest = some cs' ∧
      cs = Char.ofNat n :: cs' := by
  rw [decode_cons] at h
  by_cases h1 : b.toNat ≤ 0x7f
  · rw [if_pos h1] at h
    obtain ⟨cs', hcs, rfl⟩ := Option.map_eq_some_iff.mp h
    exact ⟨[b], _, bs, cs', rfl, .one h1, hcs, rfl⟩
  rw [if_neg h1] at h
  by_cases h2 : 0xc2 ≤ b.toNat ∧ b.toNat ≤ 0xdf
  · rw [if_pos h2] at h
    obtain ⟨b₁, bs₁, rfl, hl, hu, hrun⟩ := run_eq_some (by simp) h
    rw [if_pos rfl] at hrun
    obtain ⟨cs', hcs, rfl⟩ := Option.map_eq_some_iff.mp hrun
    exact ⟨[b, b₁], _, bs₁, cs', rfl, .two h2 ⟨hl, hu⟩, hcs, rfl⟩
  rw [if_neg h2] at h
  by_cases h3 : 0xe0 ≤ b.toNat ∧ b.toNat ≤ 0xef
  · rw [if_pos h3] at h
    obtain ⟨b₁, bs₁, rfl, hl, hu, hrun⟩ := run_eq_some (by simp) h
    rw [if_neg (by simp)] at hrun
    obtain ⟨b₂, bs₂, rfl, hl₂, hu₂, hrun⟩ := run_eq_some (by simp) hrun
    rw [if_pos rfl] at hrun
    obtain ⟨cs', hcs, rfl⟩ := Option.map_eq_some_iff.mp hrun
    exact ⟨[b, b₁, b₂], _, bs₂, cs', rfl, .three h3 ⟨hl, hu⟩ ⟨hl₂, hu₂⟩, hcs, rfl⟩
  rw [if_neg h3] at h
  by_cases h4 : 0xf0 ≤ b.toNat ∧ b.toNat ≤ 0xf4
  · rw [if_pos h4] at h
    obtain ⟨b₁, bs₁, rfl, hl, hu, hrun⟩ := run_eq_some (by simp) h
    rw [if_neg (by simp)] at hrun
    obtain ⟨b₂, bs₂, rfl, hl₂, hu₂, hrun⟩ := run_eq_some (by simp) hrun
    rw [if_neg (by simp)] at hrun
    obtain ⟨b₃, bs₃, rfl, hl₃, hu₃, hrun⟩ := run_eq_some (by simp) hrun
    rw [if_pos rfl] at hrun
    obtain ⟨cs', hcs, rfl⟩ := Option.map_eq_some_iff.mp hrun
    exact ⟨[b, b₁, b₂, b₃], _, bs₃, cs', rfl, .four h4 ⟨hl, hu⟩ ⟨hl₂, hu₂⟩ ⟨hl₃, hu₃⟩, hcs, rfl⟩
  rw [if_neg h4] at h
  cases h

theorem toNat_ofNat_lt {n : ℕ} (h : n < 256) : (UInt8.ofNat n).toNat = n := by
  rw [UInt8.toNat_ofNat']
  omega

theorem encodes_char (c : Char) : Encodes (String.utf8EncodeChar c) c.toNat := by
  have hv : c.toNat < 0xd800 ∨ 0xdfff < c.toNat ∧ c.toNat < 0x110000 := c.valid
  unfold String.utf8EncodeChar
  simp only [show c.val.toNat = c.toNat from rfl]
  generalize c.toNat = v at hv
  split_ifs with h1 h2 h3
  · have hb := toNat_ofNat_lt (show v < 256 by omega)
    have h := @Encodes.one (UInt8.ofNat v) (by omega)
    rwa [hb] at h
  · have hb := toNat_ofNat_lt (show v / 64 % 32 + 192 < 256 by omega)
    have hb₁ := toNat_ofNat_lt (show v % 64 + 128 < 256 by omega)
    have h := @Encodes.two (UInt8.ofNat (v / 64 % 32 + 192)) (UInt8.ofNat (v % 64 + 128))
      (by omega) (by omega)
    rw [hb, hb₁] at h
    rwa [show (v / 64 % 32 + 192) % 32 * 64 + (v % 64 + 128) % 64 = v by omega] at h
  · have hb := toNat_ofNat_lt (show v / 4096 % 16 + 224 < 256 by omega)
    have hb₁ := toNat_ofNat_lt (show v / 64 % 64 + 128 < 256 by omega)
    have hb₂ := toNat_ofNat_lt (show v % 64 + 128 < 256 by omega)
    have h := @Encodes.three (UInt8.ofNat (v / 4096 % 16 + 224)) (UInt8.ofNat (v / 64 % 64 + 128))
      (UInt8.ofNat (v % 64 + 128)) (by omega) (by rw [hb, hb₁]; split_ifs <;> omega) (by omega)
    rw [hb, hb₁, hb₂] at h
    rwa [show ((v / 4096 % 16 + 224) % 16 * 64 + (v / 64 % 64 + 128) % 64) * 64 +
      (v % 64 + 128) % 64 = v by omega] at h
  · have hb := toNat_ofNat_lt (show v / 262144 % 8 + 240 < 256 by omega)
    have hb₁ := toNat_ofNat_lt (show v / 4096 % 64 + 128 < 256 by omega)
    have hb₂ := toNat_ofNat_lt (show v / 64 % 64 + 128 < 256 by omega)
    have hb₃ := toNat_ofNat_lt (show v % 64 + 128 < 256 by omega)
    have h := @Encodes.four (UInt8.ofNat (v / 262144 % 8 + 240)) (UInt8.ofNat (v / 4096 % 64 + 128))
      (UInt8.ofNat (v / 64 % 64 + 128)) (UInt8.ofNat (v % 64 + 128)) (by omega)
      (by rw [hb, hb₁]; split_ifs <;> omega) (by omega) (by omega)
    rw [hb, hb₁, hb₂, hb₃] at h
    rwa [show (((v / 262144 % 8 + 240) % 8 * 64 + (v / 4096 % 64 + 128) % 64) * 64 +
      (v / 64 % 64 + 128) % 64) * 64 + (v % 64 + 128) % 64 = v by omega] at h

theorem byte_eq {n : ℕ} {b : UInt8} (h : n = b.toNat) : UInt8.ofNat n = b := by
  rw [h, UInt8.ofNat_toNat]

theorem utf8EncodeChar_ofNat {n : ℕ} (h : n.isValidChar) :
    String.utf8EncodeChar (Char.ofNat n) =
      if n ≤ 127 then [UInt8.ofNat n]
      else if n ≤ 2047 then [UInt8.ofNat (n / 64 % 32 + 192), UInt8.ofNat (n % 64 + 128)]
      else if n ≤ 65535 then [UInt8.ofNat (n / 4096 % 16 + 224), UInt8.ofNat (n / 64 % 64 + 128),
        UInt8.ofNat (n % 64 + 128)]
      else [UInt8.ofNat (n / 262144 % 8 + 240), UInt8.ofNat (n / 4096 % 64 + 128),
        UInt8.ofNat (n / 64 % 64 + 128), UInt8.ofNat (n % 64 + 128)] := by
  have hn : (Char.ofNat n).val.toNat = n := by
    rw [Char.ofNat, dif_pos h]
    rfl
  simp only [String.utf8EncodeChar, hn]

theorem encodes_eq {front : Bytes} {n : ℕ} (h : Encodes front n) :
    String.utf8EncodeChar (Char.ofNat n) = front := by
  cases h with
  | @one b h =>
    rw [utf8EncodeChar_ofNat (by unfold Nat.isValidChar; omega), if_pos h, UInt8.ofNat_toNat]
  | @two b b₁ h h₁ =>
    rw [utf8EncodeChar_ofNat (by unfold Nat.isValidChar; omega), if_neg (by omega), if_pos (by omega),
      byte_eq (show _ = b.toNat by omega), byte_eq (show _ = b₁.toNat by omega)]
  | @three b b₁ b₂ h h₁ h₂ =>
    split_ifs at h₁ <;>
      rw [utf8EncodeChar_ofNat (by unfold Nat.isValidChar; omega), if_neg (by omega),
        if_neg (by omega), if_pos (by omega), byte_eq (show _ = b.toNat by omega),
        byte_eq (show _ = b₁.toNat by omega), byte_eq (show _ = b₂.toNat by omega)]
  | @four b b₁ b₂ b₃ h h₁ h₂ h₃ =>
    split_ifs at h₁ <;>
      rw [utf8EncodeChar_ofNat (by unfold Nat.isValidChar; omega), if_neg (by omega),
        if_neg (by omega), if_neg (by omega), byte_eq (show _ = b.toNat by omega),
        byte_eq (show _ = b₁.toNat by omega), byte_eq (show _ = b₂.toNat by omega),
        byte_eq (show _ = b₃.toNat by omega)]

theorem decode_eq_some_iff {bs : Bytes} {cs : List Char} : decode bs = some cs ↔ bs = encode cs := by
  constructor
  · intro h
    induction hn : bs.length using Nat.strong_induction_on generalizing bs cs with
    | _ n ih =>
    subst hn
    cases bs with
    | nil =>
      cases h
      rfl
    | cons b bs =>
      obtain ⟨front, n, rest, cs', hsplit, henc, hrest, rfl⟩ := decode_cons_eq_some h
      have hlen : rest.length < (b :: bs).length := by
        rw [hsplit, List.length_append]
        cases henc <;> simp
      rw [hsplit, ih rest.length hlen hrest rfl, encode, encode, List.flatMap_cons, encodes_eq henc]
  · rintro rfl
    induction cs with
    | nil => rfl
    | cons c cs ih =>
      rw [encode, List.flatMap_cons, decode_append (encodes_char c), Char.ofNat_toNat]
      exact congrArg (Option.map (c :: ·)) ih

theorem decode_encode (cs : List Char) : decode (encode cs) = some cs := decode_eq_some_iff.mpr rfl

theorem encode_injective : Function.Injective encode := by
  intro cs cs' h
  have hd := decode_encode cs
  rw [h, decode_encode] at hd
  exact (Option.some.inj hd).symm

theorem toNat_of_mem_encodes {front : Bytes} {n : ℕ} (h : Encodes front n) {b : UInt8} (hb : b ∈ front)
    (hlt : b.toNat < 128) : n = b.toNat := by
  cases h <;> grind

theorem mem_of_mem_encode {cs : List Char} {b : UInt8} (h : b ∈ encode cs) (hlt : b.toNat < 128) :
    ∃ c ∈ cs, c.toNat = b.toNat := by
  obtain ⟨c, hc, hb⟩ := List.mem_flatMap.mp h
  exact ⟨c, hc, toNat_of_mem_encodes (encodes_char c) hb hlt⟩

theorem lt_of_mem_encodes {front : Bytes} {n : ℕ} (h : Encodes front n) (hn : n < 128) {b : UInt8}
    (hb : b ∈ front) : b.toNat < 128 := by
  cases h with
  | one h => exact List.mem_singleton.mp hb ▸ hn
  | two h h₁ => omega
  | three h h₁ h₂ => split_ifs at h₁ <;> omega
  | four h h₁ h₂ h₃ => split_ifs at h₁ <;> omega

theorem decode_ascii {bs : Bytes} (h : ∀ b ∈ bs, b.toNat < 128) :
    decode bs = some (bs.map fun b => Char.ofNat b.toNat) := by
  induction bs with
  | nil => rfl
  | cons b bs ih =>
    obtain ⟨hb, hbs⟩ := List.forall_mem_cons.mp h
    rw [decode_cons, if_pos (by omega), ih hbs]
    rfl

theorem ascii_encode_iff {cs : List Char} :
    (∀ b ∈ encode cs, b.toNat < 128) ↔ ∀ c ∈ cs, c.toNat < 128 := by
  constructor
  · intro h c hc
    obtain ⟨b, hb⟩ := List.exists_mem_of_ne_nil _ (String.utf8EncodeChar_ne_nil (c := c))
    have hlt := h b (List.mem_flatMap.mpr ⟨c, hc, hb⟩)
    exact toNat_of_mem_encodes (encodes_char c) hb hlt ▸ hlt
  · intro h b hb
    obtain ⟨c, hc, hmem⟩ := List.mem_flatMap.mp hb
    exact lt_of_mem_encodes (encodes_char c) (h c hc) hmem

end Exact

section Mark

def StartsWithMark (bs : Bytes) : Prop := bs.take 3 = [0xef, 0xbb, 0xbf]

instance (bs : Bytes) : Decidable (StartsWithMark bs) := inferInstanceAs (Decidable (_ = _))

theorem encode_append (cs cs' : List Char) : encode (cs ++ cs') = encode cs ++ encode cs' :=
  List.flatMap_append

theorem encode_mark (cs : List Char) :
    encode (byteOrderMark :: cs) = [0xef, 0xbb, 0xbf] ++ encode cs := by
  have hmark : String.utf8EncodeChar byteOrderMark = [0xef, 0xbb, 0xbf] := by decide
  rw [encode, List.flatMap_cons, hmark, encode]

theorem startsWithMark_encode {cs : List Char} :
    StartsWithMark (encode cs) ↔ cs.head? = some byteOrderMark := by
  constructor
  · intro h
    have hsplit : encode cs = [0xef, 0xbb, 0xbf] ++ (encode cs).drop 3 := by
      rw [← h, List.take_append_drop]
    have henc : Encodes [0xef, 0xbb, 0xbf] 0xfeff :=
      @Encodes.three 0xef 0xbb 0xbf (by decide) (by decide) (by decide)
    have hd := decode_encode cs
    rw [hsplit, decode_append henc] at hd
    obtain ⟨cs', -, rfl⟩ := Option.map_eq_some_iff.mp hd
    rfl
  · intro h
    obtain ⟨cs', rfl⟩ := List.head?_eq_some_iff.mp h
    rw [encode_mark]
    rfl

theorem textDecode_encode (cs : List Char) : textDecode (encode cs) = some (dropMark cs) := by
  rw [textDecode, decode_encode, Option.map_some]

theorem encode_dropMark (cs : List Char) :
    encode (dropMark cs) = if StartsWithMark (encode cs) then (encode cs).drop 3 else encode cs := by
  simp only [startsWithMark_encode]
  cases cs with
  | nil => rfl
  | cons c cs =>
    by_cases hc : c = byteOrderMark
    · subst hc
      simp [dropMark, encode_mark]
    · simp [dropMark, hc]

theorem encode_dropMark_eq_iff {cs : List Char} :
    encode (dropMark cs) = encode cs ↔ ¬ StartsWithMark (encode cs) := by
  rw [encode_dropMark]
  split_ifs with h
  · simp only [h, not_true_eq_false, iff_false]
    intro he
    have hlen := congrArg List.length he
    have htake := congrArg List.length h
    simp only [List.length_drop, List.length_take, List.length_cons, List.length_nil] at hlen htake
    omega
  · simp [h]

end Mark

end ProgramExplorer.Utf8
