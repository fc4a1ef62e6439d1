import ProgramExplorer.ErofsReadback
import ProgramExplorer.ErofsXattrs

/-!
# When xattrs are read back

A reader that is ahead of the entries by some bytes stays ahead: the entry it
finds there, if it is one of the expected, is too long to end where the next
one starts. So reading succeeds exactly when no entry puts it ahead.
-/

set_option autoImplicit false

namespace ProgramExplorer.ErofsXattrSync
open ByteStrings OrderedMap ByteStore LittleEndian StateRules ErofsTree ErofsDisk
open ErofsBuilder ErofsPlacement ErofsReader ErofsXattrs ErofsReadback

theorem shifted_zeros {u w : Bytes} {n : ℕ} (hu : u.length = n) (hn : 0 < n)
    (h : u ++ w = w ++ List.replicate n 0) (k : ℕ) (hk : k < n + w.length) :
    (u ++ w)[k]? = some 0 := by
  -- each byte equals the one `n` places further on, and the last `n` bytes are zero
  induction hm : n + w.length - k using Nat.strong_induction_on generalizing k with
  | _ m ih =>
    by_cases hkw : k < w.length
    · have hnext := ih (n + w.length - (k + n)) (by omega) (k + n) (by omega) rfl
      rw [List.getElem?_append_right (by omega), hu, Nat.add_sub_cancel] at hnext
      rw [h, List.getElem?_append_left hkw, hnext]
    · rw [h, List.getElem?_append_right (by omega), List.getElem?_replicate, if_pos (by omega)]

theorem le_roundUpTo (n : ℕ) : n ≤ roundUpTo 4 n := by
  unfold roundUpTo
  split_ifs <;> omega

theorem roundUpTo_mod (n : ℕ) : roundUpTo 4 n % 4 = 0 := by
  unfold roundUpTo
  split_ifs <;> omega

theorem roundUpTo_pos (n : ℕ) : 4 ≤ roundUpTo 4 n := by
  unfold roundUpTo
  split_ifs <;> omega

/-- One entry as the reader takes it from bytes that stand `shift` ahead. -/
structure ReadAt (kv : Bytes × Bytes) (z : Bytes) (shift : ℕ) (a b c d : UInt8)
    (rest pre name : Bytes) : Prop where
  data : (encoded kv ++ z).drop shift = a :: b :: c :: d :: rest
  text : prefixText b = some pre
  key : kv.1 = pre ++ name
  nameLen : name.length = a.toNat
  valueLen : kv.2.length = c.toNat + 256 * d.toNat

theorem header_bytes {kv : Bytes × Bytes} (hs : Small kv) :
    ∃ n i lo hi, encoded kv = n :: i :: lo :: hi :: (shortName kv.1 ++ kv.2) ∧
      i = prefixId kv.1 ∧ kv.2.length = lo.toNat + 256 * hi.toNat := by
  refine ⟨_, _, _, _, encoded_eq kv, UInt8.ofNat_toNat, ?_⟩
  have := hs.value
  simp only [UInt8.toNat_ofNat', UInt16.toNat_ofNat']
  omega

/-- Only far ahead can the reader mistake the middle of a `security.` name for
the head of an entry. -/
theorem security_shift {kv : Bytes × Bytes} (hs : Small kv) {z : Bytes} {shift : ℕ}
    (h1 : 1 ≤ shift) {a b c d : UInt8} {rest pre name : Bytes}
    (h : ReadAt kv z shift a b c d rest pre name) (hb : b = 6)
    (hn : shortName kv.1 = security ++ name) : 12 ≤ shift := by
  obtain ⟨n, i, lo, hi, henc, -, hv⟩ := header_bytes hs
  have hdata := h.data
  have hlen := h.valueLen
  rw [henc, hn] at hdata
  by_contra hlt
  have hlo := lo.toNat_lt
  have hc := c.toNat_lt
  have hd := d.toNat_lt
  subst hb
  interval_cases shift <;> simp [security] at hdata
  · obtain ⟨-, hlo6, rfl, rfl, -⟩ := hdata
    subst hlo6
    simp at hlen hv
    omega
  · obtain ⟨-, hhi, rfl, rfl, -⟩ := hdata
    subst hhi
    simp at hlen hv
    omega

theorem shift_step {kv : Bytes × Bytes} (hs : Small kv) {z : Bytes} {shift : ℕ} (h1 : 1 ≤ shift)
    {a b c d : UInt8} {rest pre name : Bytes} (h : ReadAt kv z shift a b c d rest pre name) :
    size kv + 1 ≤ shift + roundUpTo 4 (name.length + kv.2.length) := by
  have hround := le_roundUpTo (name.length + kv.2.length)
  rcases name_cases h.text h.key with ⟨hn, -⟩ | hn | ⟨hb, hn⟩
  · rw [size, ← hn]
    omega
  · rw [size]
    omega
  · have := security_shift hs h1 h hb hn
    have hlen : (shortName kv.1).length = name.length + 9 := by
      rw [hn, List.length_append]
      simp [security]
      omega
    rw [size, hlen]
    omega

theorem prefixId_of_prefixLen {key : Bytes} (h : prefixLen key = 0) : prefixId key = 5 := by
  rcases builtin_cases key with ⟨i, h1, h4, pre, hpre, -, -, hlen⟩ | ⟨hid, -⟩
  · have hi : i = 1 ∨ i = 2 ∨ i = 3 ∨ i = 4 := by omega
    rcases hi with rfl | rfl | rfl | rfl <;> cases hpre <;> simp_all
  · exact hid

theorem zeros_of_shifted {w rest : Bytes} {shift pad : ℕ} (h1 : 1 ≤ shift) (hle : shift ≤ pad)
    (hrest : rest = (w ++ List.replicate pad 0).drop shift) (hpre : w <+: rest) (k : ℕ)
    (hk : k < w.length + pad) : (w ++ List.replicate pad 0)[k]? = some 0 := by
  obtain ⟨t, ht⟩ := hpre
  generalize hz : List.replicate pad (0 : UInt8) = z at *
  have hzlen : z.length = pad := by rw [← hz, List.length_replicate]
  have hsplit : (w ++ z).take shift ++ (w ++ t) = w ++ z := by
    rw [ht, hrest, List.take_append_drop]
  have hlen : ((w ++ z).take shift).length = shift := by
    simp [hzlen]
    omega
  have htlen : t.length + shift = pad := by
    have := congrArg List.length hsplit
    simp only [List.length_append, hlen, hzlen] at this
    omega
  have hzs : z = List.replicate shift 0 ++ List.replicate (pad - shift) 0 := by
    rw [← hz, List.replicate_append_replicate, Nat.add_sub_cancel' hle]
  have heq : (w ++ z).take shift ++ w = w ++ List.replicate shift 0 := by
    have h := hsplit
    nth_rewrite 2 [hzs] at h
    rw [← List.append_assoc, ← List.append_assoc] at h
    exact (List.append_inj' h (by simp; omega)).1
  by_cases hkw : k < shift + w.length
  · have := shifted_zeros hlen h1 heq k hkw
    rw [heq] at this
    rw [hzs, ← List.append_assoc, List.getElem?_append_left (by simp; omega), this]
  · rw [← hz, List.getElem?_append_right (by omega), List.getElem?_replicate, if_pos (by omega)]

/-- Ahead of the last entry the reader cannot find that entry again. -/
theorem last_step {kv : Bytes × Bytes} (hs : Small kv) {pad shift : ℕ} (hpad : pad ≤ 3)
    (h1 : 1 ≤ shift) {a b c d : UInt8} {rest pre name : Bytes}
    (h : ReadAt kv (List.replicate pad 0) shift a b c d rest pre name)
    (hpre : name ++ kv.2 <+: rest)
    (hend : shift + roundUpTo 4 (name.length + kv.2.length) = size kv + pad) : False := by
  have hround := le_roundUpTo (name.length + kv.2.length)
  have hmod := roundUpTo_mod (name.length + kv.2.length)
  have hpos := roundUpTo_pos (name.length + kv.2.length)
  obtain ⟨n, i, lo, hi, henc, hid, hv⟩ := header_bytes hs
  have hdata := h.data
  have hval := h.valueLen
  have hname := h.nameLen
  rw [henc] at hdata
  have hrest := congrArg (List.drop 4) hdata
  rw [List.drop_drop] at hrest
  rcases name_cases h.text h.key with ⟨hn, hplen⟩ | hn | ⟨hb, hn⟩
  · have hsize : size kv = name.length + kv.2.length := by rw [size, hn]
    rw [← hn] at hdata hrest
    have hzero := zeros_of_shifted h1 (by omega) hrest.symm hpre
    have hlt : ∀ k, k < shift → k < (name ++ kv.2).length + pad := by
      intro k hk
      omega
    simp only [List.cons_append] at hdata
    generalize name ++ kv.2 ++ List.replicate pad 0 = x at hdata hzero
    have hcases : shift = 1 ∨ shift = 2 ∨ shift = 3 := by omega
    rcases hcases with rfl | rfl | rfl
    · have h0 := hzero 0 (hlt 0 (by omega))
      cases hdata
      cases h0
      have hval0 : kv.2.length = c.toNat := hval
      have hb0 : b = 0 := UInt8.toNat_inj.mp (show b.toNat = 0 by omega)
      have htext := h.text
      rw [hb0] at htext
      cases htext
      rw [prefixId_of_prefixLen hplen.symm] at hid
      have h5 : name.length = 5 := by rw [hname, hid]; rfl
      omega
    · have h0 := hzero 0 (hlt 0 (by omega))
      have h1' := hzero 1 (hlt 1 (by omega))
      cases hdata
      cases h0
      cases h1'
      have hval0 : kv.2.length = 0 := hval
      omega
    · have h0 := hzero 0 (hlt 0 (by omega))
      have h1' := hzero 1 (hlt 1 (by omega))
      have h2' := hzero 2 (hlt 2 (by omega))
      cases hdata
      cases h0
      cases h1'
      cases h2'
      have hval0 : kv.2.length = 0 := hval
      omega
  · rw [size] at hend
    omega
  · have h12 := security_shift hs h1 h hb hn
    have hlen : (shortName kv.1).length = 9 + name.length := by
      rw [hn, List.length_append]
      rfl
    rw [size, hlen] at hend
    obtain rfl : shift = 12 := by omega
    obtain rfl : pad = 3 := by omega
    rw [hn] at hdata hrest
    have hdata' : [46] ++ (name ++ kv.2 ++ List.replicate 3 0) = a :: b :: c :: d :: rest := by
      rw [← hdata]
      simp [security]
    have hzero := zeros_of_shifted (w := name ++ kv.2) (by omega) (le_refl 3)
      (by simpa [security] using hrest.symm) hpre 0
      (by omega)
    generalize name ++ kv.2 ++ List.replicate 3 0 = x at hdata' hzero
    cases hdata'
    cases hzero
    cases hb

theorem stream_cons (kv : Bytes × Bytes) (kvs : List (Bytes × Bytes)) (pad : ℕ) :
    stream (kv :: kvs) pad = encoded kv ++ stream kvs pad := by
  simp [stream]

theorem trim_eq_cons {data rest : Bytes} {a : UInt8} (h : trim data = a :: rest) :
    data = a :: rest := by
  unfold trim at h
  split_ifs at h
  exact h

theorem trim_eq_nil {data : Bytes} (h : trim data = []) : data.length < 4 := by
  unfold trim at h
  split_ifs at h with hlt
  · exact hlt
  · simp [h]

theorem no_resync {kvs : List (Bytes × Bytes)} (hne : kvs ≠ []) (hs : ∀ kv ∈ kvs, Small kv)
    {pad shift : ℕ} (hpad : pad ≤ 3) (h1 : 1 ≤ shift)
    (hmod : ((stream kvs pad).length - shift) % 4 = 0) :
    ¬ Reads (trim ((stream kvs pad).drop shift)) kvs := by
  induction kvs generalizing shift with
  | nil => exact absurd rfl hne
  | cons kv kvs ih =>
    rintro ⟨a, b, c, d, rest, pre, name, hdata, htext, hkey, hn, hv, hpre, hr, hreads⟩
    have hdrop := trim_eq_cons hdata
    rw [stream_cons] at hdrop hmod
    have hread : ReadAt kv (stream kvs pad) shift a b c d rest pre name :=
      ⟨hdrop, htext, hkey, hn, hv⟩
    have hsmall := hs kv (by simp)
    have hstep := shift_step hsmall h1 hread
    have hlen := congrArg List.length hdrop
    have hround := roundUpTo_mod (name.length + kv.2.length)
    simp only [List.length_drop, List.length_append, List.length_cons, encoded_length] at hlen hmod
    have hrest := congrArg (List.drop 4) hdrop
    rw [List.drop_drop] at hrest
    by_cases hnil : kvs = []
    · subst hnil
      have hend : rest.length - roundUpTo 4 (name.length + kv.2.length) < 4 := by
        have := trim_eq_nil hreads
        rwa [List.length_drop] at this
      have hpadlen : (stream [] pad).length = pad := by simp [stream]
      refine last_step hsmall hpad h1 (by simpa [stream] using hread) hpre ?_
      omega
    · have hnext : rest.drop (roundUpTo 4 (name.length + kv.2.length)) =
          (stream kvs pad).drop (shift + roundUpTo 4 (name.length + kv.2.length) - size kv) := by
        rw [← show List.drop 4 (a :: b :: c :: d :: rest) = rest from rfl, ← hrest, List.drop_drop,
          List.drop_append, List.drop_eq_nil_of_le (by rw [encoded_length]; omega), encoded_length,
          List.nil_append]
        congr 1
        omega
      rw [hnext] at hreads
      exact ih hnil (fun kv' h => hs kv' (by simp [h])) (by omega) (by omega) hreads

/-- Each entry but the last takes a positive multiple of four bytes, and the
last one takes some. -/
def InStep : List (Bytes × Bytes) → Prop
  | [] => True
  | [kv] => 0 < size kv
  | kv :: kvs => 0 < size kv ∧ size kv % 4 = 0 ∧ InStep kvs

instance decidableInStep : DecidablePred InStep
  | [] => isTrue trivial
  | [kv] => inferInstanceAs (Decidable (0 < size kv))
  | kv :: kv' :: kvs =>
    have := decidableInStep (kv' :: kvs)
    inferInstanceAs (Decidable (0 < size kv ∧ size kv % 4 = 0 ∧ InStep (kv' :: kvs)))

theorem reads_front {kv : Bytes × Bytes} (hs : Small kv) (z : Bytes) (kvs : List (Bytes × Bytes)) :
    Reads (encoded kv ++ z) (kv :: kvs) ↔
      roundUpTo 4 (size kv) ≤ size kv + z.length ∧
        Reads (trim ((shortName kv.1 ++ kv.2 ++ z).drop (roundUpTo 4 (size kv)))) kvs := by
  obtain ⟨n, i, lo, hi, henc, hid, hv⟩ := header_bytes hs
  have hlen : (shortName kv.1 ++ kv.2 ++ z).length = size kv + z.length := by
    simp [size]
    omega
  have hkey : kv.1 = kv.1.take (prefixLen kv.1) ++ shortName kv.1 := by
    rw [shortName, List.take_append_drop]
  have hn : (shortName kv.1).length = n.toNat := by
    have h := hs.name
    have he := henc
    rw [encoded_eq] at he
    cases he
    simp only [UInt8.toNat_ofNat']
    omega
  constructor
  · rintro ⟨a, b, c, d, rest, pre, name, hdata, htext, hk, ha, -, -, hr, hreads⟩
    rw [henc] at hdata
    cases hdata
    rw [hid, prefixText_prefixId] at htext
    cases htext
    have hname : shortName kv.1 = name := List.append_cancel_left (hkey.symm.trans hk)
    subst hname
    exact ⟨hr.trans_eq hlen, hreads⟩
  · rintro ⟨hr, hreads⟩
    refine ⟨n, i, lo, hi, shortName kv.1 ++ kv.2 ++ z, _, shortName kv.1, by rw [henc]; rfl, ?_, hkey,
      hn, hv, ⟨z, rfl⟩, ?_, hreads⟩
    · rw [hid, prefixText_prefixId]
    · rw [hlen]
      exact hr

theorem stream_reads_iff {kvs : List (Bytes × Bytes)} (hs : ∀ kv ∈ kvs, Small kv) {pad : ℕ}
    (hpad : pad ≤ 3) (hmod : (stream kvs pad).length % 4 = 0) :
    Reads (trim (stream kvs pad)) kvs ↔ InStep kvs := by
  induction kvs with
  | nil =>
    have : trim (stream [] pad) = [] := by
      rw [trim, if_pos]
      simp [stream]
      omega
    simp [this, Reads, InStep]
  | cons kv kvs ih =>
    have htrim : trim (stream (kv :: kvs) pad) = encoded kv ++ stream kvs pad := by
      rw [stream_cons, trim, if_neg]
      rw [List.length_append, encoded_length]
      omega
    have hsmall := hs kv (by simp)
    have hs' : ∀ kv ∈ kvs, Small kv := fun kv' h => hs kv' (by simp [h])
    have hbody : (shortName kv.1 ++ kv.2).length = size kv := by simp [size]
    have hround := le_roundUpTo (size kv)
    have hround4 := roundUpTo_mod (size kv)
    have hdrop : (shortName kv.1 ++ kv.2 ++ stream kvs pad).drop (roundUpTo 4 (size kv)) =
        (stream kvs pad).drop (roundUpTo 4 (size kv) - size kv) := by
      rw [List.drop_append, List.drop_eq_nil_of_le (by omega), hbody, List.nil_append]
    rw [stream_cons, List.length_append, encoded_length] at hmod
    rw [htrim, reads_front hsmall, hdrop]
    cases kvs with
    | nil =>
      have hlen : (stream [] pad).length = pad := by simp [stream]
      have htail : trim ((stream [] pad).drop (roundUpTo 4 (size kv) - size kv)) = [] := by
        rw [trim, if_pos]
        rw [List.length_drop]
        omega
      simp only [htail, Reads, InStep, and_true, hlen]
      rw [hlen] at hmod
      unfold roundUpTo
      split_ifs <;> omega
    | cons kv' kvs =>
      by_cases hstep : 0 < size kv ∧ size kv % 4 = 0
      · have heq : roundUpTo 4 (size kv) = size kv := by
          rw [roundUpTo, if_neg (by omega)]
          omega
        rw [heq, Nat.sub_self, List.drop_zero, ih hs' (by omega)]
        simp [InStep, hstep]
      · have hahead : 1 ≤ roundUpTo 4 (size kv) - size kv := by
          unfold roundUpTo
          split_ifs <;> omega
        refine iff_of_false ?_ (fun h => hstep ⟨h.1, h.2.1⟩)
        rintro ⟨hle, hreads⟩
        exact no_resync (by simp) hs' hpad hahead (by omega) hreads

/-- `get_inode`, `get_xattrs` and the iteration with the names in full. -/
def readXattrs (fs : Erofs) (id : UInt32) : Except ErofsReader.Error (List (Bytes × Bytes)) := do
  let inode ← fs.getInode id
  match ← fs.getXattrs inode with
  | none => pure []
  | some it => XattrsIterator.items (it.data.length + 1) it >>= xattrPairs

theorem reads_length {data : Bytes} {kvs : List (Bytes × Bytes)} (h : Reads data kvs) :
    kvs.length ≤ data.length := by
  induction kvs generalizing data with
  | nil => simp
  | cons kv kvs ih =>
    obtain ⟨a, b, c, d, rest, pre, name, rfl, -, -, -, -, -, -, hreads⟩ := h
    have hlen := ih hreads
    have htrim : ∀ bs : Bytes, (trim bs).length ≤ bs.length := by
      intro bs
      unfold trim
      split_ifs <;> simp
    have := htrim (rest.drop (roundUpTo 4 (name.length + kv.2.length)))
    simp only [List.length_drop, List.length_cons] at *
    omega

theorem xattrsBytes_eq {xattrs : XattrMap} {entries : List (ℕ × XattrEntry)}
    (h : makeXattrEntries xattrs.entries = .ok entries) (hne : xattrs.entries ≠ []) :
    ∃ pad, pad ≤ 3 ∧ (stream xattrs.entries pad).length % 4 = 0 ∧
      xattrsBytes xattrs entries (xattrCount (entries.map (·.2))).2 =
        XattrHeader.zeroed.asBytes ++ stream xattrs.entries pad := by
  obtain ⟨-, hbody⟩ := makeXattrEntries_eq h
  have hlen := xattrBody_length h
  have hs : xattrsSize (entries.map (·.2)) ≠ 0 := fun hz => hne ((makeXattrEntries_nil h).mpr hz)
  rw [hbody] at hlen
  refine ⟨(xattrCount (entries.map (·.2))).2, ?_, ?_, ?_⟩
  · rw [xattrCount, if_neg hs, roundUpTo, if_neg hs]
    omega
  · rw [stream, List.length_append, hlen, List.length_replicate, xattrCount, if_neg hs, roundUpTo,
      if_neg hs]
    omega
  · rw [xattrsBytes, if_neg hne, stream, ← hbody, List.append_assoc]
    rfl

theorem recordOf_ok {inode : DiskInode} {tail : Option Bytes} {xattrs : XattrMap} {record : Bytes}
    (h : recordOf inode tail xattrs = .ok record) :
    ∃ entries, makeXattrEntries xattrs.entries = .ok entries ∧
      (xattrCount (entries.map (·.2))).1 < 65536 ∧
      record = (inode.withXattrCount (UInt16.ofNat (xattrCount (entries.map (·.2))).1)).asBytes ++
        (xattrsBytes xattrs entries (xattrCount (entries.map (·.2))).2 ++ tail.getD []) := by
  obtain ⟨entries, he, h⟩ := except_bind_eq_ok.mp h
  simp only at h
  split_ifs at h with hc
  cases h
  exact ⟨entries, he, hc, List.append_assoc _ _ _⟩

theorem xattrCount_withXattrCount (inode : DiskInode) (count : UInt16) (id : UInt32) :
    (readAs id (inode.withXattrCount count)).xattrCount = count := by
  cases inode <;> rfl

section Reading

variable {metaBlock : ℕ} {fs : Erofs} (hv : Volume metaBlock fs)
include hv

theorem getXattrs_eq (hshared : fs.sb.xattrBlkaddr = 0) (inode : DiskInode) {id : UInt32}
    {count : UInt16} (hcount : count ≠ 0) {body : Bytes}
    (hlen : 12 + body.length = xattrCountToLen count)
    (h : HasAt fs.data (inodeAddress metaBlock id + (inode.withXattrCount count).asBytes.length)
      (XattrHeader.zeroed.asBytes ++ body)) :
    fs.getXattrs (readAs id (inode.withXattrCount count)) = .ok (some ⟨body, fs.data, 0⟩) := by
  have haddr := inodeAddress_lt hv id
  have hsize := size_le (readAs id (inode.withXattrCount count))
  rw [asBytes_length _ id] at h
  have hid : (readAs id (inode.withXattrCount count)).diskId = id := by cases inode <;> rfl
  have hxlen : (readAs id (inode.withXattrCount count)).xattrLen = some (12 + body.length) := by
    rw [Inode.xattrLen, xattrCount_withXattrCount, ← hlen, if_neg (by omega)]
  have hbound : 12 + body.length < 2 ^ 20 := by
    have := count.toNat_lt
    rw [hlen, xattrCountToLen, if_neg hcount]
    omega
  have hslice := h.slice? (h.length_le (List.ne_nil_of_length_pos (by
    rw [List.length_append, XattrHeader.asBytes_length]
    omega)))
  rw [List.length_append, XattrHeader.asBytes_length] at hslice
  generalize readAs id (inode.withXattrCount count) = i at *
  have hoff : fs.inodeOffset i = .ok (inodeAddress metaBlock id) := by
    rw [Erofs.inodeOffset, hid, rawInodeOffset_eq hv]
  have hzero : from? fs.data 0 = some fs.data := by simp [from?]
  have hadd1 : add64 (inodeAddress metaBlock id) i.size =
      .ok (inodeAddress metaBlock id + i.size) := by
    rw [add64, if_pos (by omega)]
  have hadd2 : add64 (inodeAddress metaBlock id + i.size) (12 + body.length) =
      .ok (inodeAddress metaBlock id + i.size + (12 + body.length)) := by
    rw [add64, if_pos (by omega)]
  simp only [Erofs.getXattrs, hxlen, hoff, bind, Except.bind, hadd1, hadd2, hslice,
    reader_okOr_some, blockOffset_eq hv, hshared, XattrHeader.fromPrefix_asBytes]
  simp only [UInt32.toNat_zero, Nat.zero_mul, hzero, reader_okOr_some]
  rfl

theorem readXattrs_iff (hshared : fs.sb.xattrBlkaddr = 0) {inode : DiskInode} (hw : WellTagged inode)
    {tail : Option Bytes} {xattrs : XattrMap} {record : Bytes}
    (hr : recordOf inode tail xattrs = .ok record) {id : UInt32}
    (hat : HasAt fs.data (inodeAddress metaBlock id) record) :
    readXattrs fs id = .ok xattrs.entries ↔ InStep xattrs.entries := by
  obtain ⟨entries, he, hc, rfl⟩ := recordOf_ok hr
  obtain ⟨hinode, hrest⟩ := (hasAt_append _ _ _ _).mp hat
  obtain ⟨hxs, -⟩ := (hasAt_append _ _ _ _).mp hrest
  have hget := getInode_eq hv (wellTagged_withXattrCount hw _) hinode
  have hlen := xattrsBytes_length he hc
  by_cases hnil : xattrs.entries = []
  · have hcount : UInt16.ofNat (xattrCount (entries.map (·.2))).1 = 0 := by
      rw [xattrCount, if_pos ((makeXattrEntries_nil he).mp hnil)]
      rfl
    have hnone : fs.getXattrs (readAs id (inode.withXattrCount 0)) = .ok none := by
      rw [Erofs.getXattrs, Inode.xattrLen, xattrCount_withXattrCount]
      rfl
    rw [hcount] at hget
    simp only [readXattrs, hget, hnone, bind, Except.bind, hnil]
    exact iff_of_true rfl trivial
  · obtain ⟨pad, hpad, hmod, hbytes⟩ := xattrsBytes_eq he hnil
    obtain ⟨hsmall, -⟩ := makeXattrEntries_eq he
    rw [hbytes] at hxs hlen
    rw [List.length_append, XattrHeader.asBytes_length] at hlen
    have hcount : UInt16.ofNat (xattrCount (entries.map (·.2))).1 ≠ 0 := by
      intro h0
      rw [h0] at hlen
      simp [xattrCountToLen] at hlen
    have hx := getXattrs_eq hv hshared inode hcount hlen hxs
    have htrim : trim (stream xattrs.entries pad) = stream xattrs.entries pad := by
      rw [trim, if_neg]
      obtain ⟨kv, kvs, hcons⟩ := List.exists_cons_of_ne_nil hnil
      rw [hcons, stream_cons, List.length_append, encoded_length]
      omega
    have hread : readXattrs fs id = (XattrsIterator.items ((stream xattrs.entries pad).length + 1)
        ⟨stream xattrs.entries pad, fs.data, 0⟩ >>= xattrPairs) := by
      simp only [readXattrs, hget, hx, bind, Except.bind]
    rw [hread, items_iff, ← stream_reads_iff hsmall hpad hmod, htrim, and_iff_left_iff_imp]
    intro hreads
    have := reads_length hreads
    omega

end Reading

/-- The record that fills a block from its start is written a block below the
address of its id. -/
theorem misplaced_end {metaBlock : ℕ} {b : Builder} (hp : Placed metaBlock b)
    (hend : b.writer.data.length ≤ b.inodeAddr) {inode : DiskInode} {tail : Option Bytes}
    {xattrs : XattrMap} (hfit : ¬ Fits b inode tail xattrs) {id : UInt32}
    (hid : result (writeInode inode tail xattrs b) = .ok id) :
    (stateAfter (writeInode inode tail xattrs b)).writer.data.length ≤ inodeAddress metaBlock id := by
  rcases writeInode_eq inode tail xattrs b with ⟨e, -, he⟩ | ⟨data, xs, hr, heq⟩
  · rw [he] at hid
    cases hid
  · obtain ⟨record, hr', hlen, hmod⟩ : ∃ record, recordOf inode tail xattrs = .ok record ∧
        record.length = blockSize ∧ b.inodeAddr % blockSize = 0 := by
      simpa [Fits, not_forall] using hfit
    cases hr.symm.trans hr'
    have hskip : (counted b).inodeAddr / blockSize ≠
        ((counted b).inodeAddr + blockSize) / blockSize := by
      simp only [blockSize]
      omega
    have ha := alignInode_eq blockSize (counted b)
    rw [if_pos hskip] at ha
    have hp' : Addressed metaBlock (skipped blockSize (counted b)) := by
      have hal := hp.aligned
      have hab := hp.above
      refine ⟨hp.isMeta, ?_, ?_⟩
      all_goals
        simp only [skipped, counted, inodeAlignment, blockSize] at *
        omega
    rw [heq, writeRecord_eq rfl hlen.le (hlen ▸ ha) hp'] at hid ⊢
    cases ht : toU32 (((skipped blockSize (counted b)).inodeAddr - metaBlock * blockSize) /
        inodeAlignment) Error.diskIdTooBig with
    | error e =>
      rw [ht] at hid
      cases hid
    | ok id' =>
      rw [ht] at hid
      cases hid
      have hid' := toU32_ok ht
      have hnopad : padding blockSize inodeAlignment = 0 := rfl
      have hstay : padding (counted b).inodeAddr blockSize = 0 := if_pos hmod
      have hw := Writer.length_writeAll_le b.writer (data ++ xs ++ tail.getD [])
      have hal := hp.aligned
      have hab := hp.above
      have hpos := hp.pos
      simp only [stateAfter, recorded, skipped, hlen, hnopad, hstay, List.replicate_zero,
        List.append_nil, Writer.writeAll_append, List.nil_append, counted, inodeAddress,
        inodeAlignment, blockSize] at *
      omega

/-- Reading an inode that was just written gives the entries of its map exactly
when the record is placed at its address and every entry is read in step. -/
theorem xattrs_roundtrip_iff (metaBlock : ℕ) (b : Builder) (hp : Placed metaBlock b)
    (hend : b.writer.data.length ≤ b.inodeAddr) (inode : DiskInode) (hw : WellTagged inode)
    (tail : Option Bytes) (xattrs : XattrMap) (id : UInt32)
    (hid : result (writeInode inode tail xattrs b) = .ok id) (sb : Superblock)
    (hbits : sb.blkszbits = 12) (hmeta : sb.metaBlkaddr.toNat = metaBlock)
    (hshared : sb.xattrBlkaddr = 0) :
    readXattrs ⟨(stateAfter (writeInode inode tail xattrs b)).writer.data, sb⟩ id =
        .ok xattrs.entries ↔
      Fits b inode tail xattrs ∧ InStep xattrs.entries := by
  have hv : Volume metaBlock ⟨(stateAfter (writeInode inode tail xattrs b)).writer.data, sb⟩ :=
    ⟨hbits, hmeta⟩
  by_cases hfit : Fits b inode tail xattrs
  · obtain ⟨-, -, hrec⟩ := writeInode_step hp hfit
    obtain ⟨record, hr, hs⟩ := hrec id hid
    rw [readXattrs_iff hv hshared hw hr hs.written]
    exact ⟨fun h => ⟨hfit, h⟩, fun h => h.2⟩
  · refine iff_of_false ?_ (fun h => hfit h.1)
    intro hread
    obtain ⟨i, hi, -⟩ := except_bind_eq_ok.mp hread
    exact getInode_oob hv (misplaced_end hp hend hfit hid) i hi

def taggedInode : InodeExtended :=
  { InodeExtended.zeroed with formatLayout := formatLayout .extended .flatPlain }

def firstMeta : Superblock := { Superblock.zeroed with blkszbits := 12, metaBlkaddr := 1 }

def twoXattrs : XattrMap where
  entries := [([117, 115, 101, 114, 46, 97], [49]), ([117, 115, 101, 114, 46, 98], [50])]
  sorted := by decide

def oneXattr : XattrMap where
  entries := [([117, 115, 101, 114, 46, 97], [49, 50, 51])]
  sorted := by decide

theorem xattrs_roundtrip_one :
    result (writeInode (.extended taggedInode) none oneXattr emptyMeta) = .ok 0 ∧
      Fits emptyMeta (.extended taggedInode) none oneXattr ∧ InStep oneXattr.entries ∧
      readXattrs ⟨(stateAfter (writeInode (.extended taggedInode) none oneXattr
        emptyMeta)).writer.data, firstMeta⟩ 0 = .ok oneXattr.entries := by
  have hok : result (writeInode (.extended taggedInode) none oneXattr emptyMeta) = .ok 0 := by decide
  have hfit : Fits emptyMeta (.extended taggedInode) none oneXattr := by
    intro record hr hfull
    cases hr
    exact absurd hfull.1 (by decide)
  have hstep : InStep oneXattr.entries := by decide
  refine ⟨hok, hfit, hstep, ?_⟩
  exact (xattrs_roundtrip_iff 1 emptyMeta ⟨⟨rfl, rfl, by decide⟩, rfl⟩ (by decide) _
    (show WellTagged (.extended taggedInode) from ⟨by decide, by decide⟩) none oneXattr 0 hok
    firstMeta rfl rfl rfl).mpr ⟨hfit, hstep⟩

theorem second_xattr_lost :
    result (writeInode (.extended taggedInode) none twoXattrs emptyMeta) = .ok 0 ∧
      readXattrs ⟨(stateAfter (writeInode (.extended taggedInode) none twoXattrs
        emptyMeta)).writer.data, firstMeta⟩ 0 = .error .oob := by
  decide +kernel

end ProgramExplorer.ErofsXattrSync
