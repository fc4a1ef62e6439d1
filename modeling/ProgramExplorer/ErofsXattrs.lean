import ProgramExplorer.ErofsPlacement

/-!
# Reading xattrs back

The writer lays the entries of an inode out back to back and pads once at the
end; the reader moves on by a multiple of four after each entry, and by four
after an entry with no name and no value. They agree exactly when every entry
but the last takes a positive multiple of four and the last takes something.
Otherwise the reader runs ahead of the entries and never falls back in step.
-/

set_option autoImplicit false

namespace ProgramExplorer.ErofsXattrs
open ByteStrings OrderedMap ByteStore LittleEndian StateRules ErofsTree ErofsDisk
open ErofsBuilder ErofsPlacement ErofsReader

def prefixId (key : Bytes) : UInt8 := ((xattrBuiltinPrefix key).getD (0, 0)).1

def prefixLen (key : Bytes) : ℕ := ((xattrBuiltinPrefix key).getD (0, 0)).2

def shortName (key : Bytes) : Bytes := key.drop (prefixLen key)

def entryFor (kv : Bytes × Bytes) : XattrEntry :=
  ⟨UInt8.ofNat (shortName kv.1).length, prefixId kv.1, UInt16.ofNat kv.2.length⟩

def encoded (kv : Bytes × Bytes) : Bytes := (entryFor kv).asBytes ++ (shortName kv.1 ++ kv.2)

def size (kv : Bytes × Bytes) : ℕ := (shortName kv.1).length + kv.2.length

structure Small (kv : Bytes × Bytes) : Prop where
  name : (shortName kv.1).length < 256
  value : kv.2.length < 65536

theorem makeXattrEntries_eq {kvs : List (Bytes × Bytes)} {entries : List (ℕ × XattrEntry)}
    (h : makeXattrEntries kvs = .ok entries) :
    (∀ kv ∈ kvs, Small kv) ∧ xattrBody entries kvs = kvs.flatMap encoded := by
  induction kvs generalizing entries with
  | nil =>
    cases h
    exact ⟨by simp, rfl⟩
  | cons kv kvs ih =>
    obtain ⟨e, he, h⟩ := except_bind_eq_ok.mp h
    obtain ⟨es, hes, h⟩ := except_bind_eq_ok.mp h
    cases h
    obtain ⟨hsmall, hbody⟩ := ih hes
    unfold makeXattrEntry at he
    simp only at he
    split_ifs at he with hk hv
    cases he
    refine ⟨?_, ?_⟩
    · intro kv' hkv'
      rcases List.mem_cons.mp hkv' with rfl | hkv'
      · refine ⟨?_, by omega⟩
        simp only [shortName, List.length_drop]
        exact Nat.not_le.mp hk
      · exact hsmall kv' hkv'
    · simp only [xattrBody, List.zip_cons_cons, List.flatMap_cons] at hbody ⊢
      rw [hbody]
      simp [encoded, entryFor, shortName, prefixLen, prefixId]

def stream (kvs : List (Bytes × Bytes)) (pad : ℕ) : Bytes :=
  kvs.flatMap encoded ++ List.replicate pad 0

theorem encoded_eq (kv : Bytes × Bytes) :
    encoded kv = UInt8.ofNat (UInt8.ofNat (shortName kv.1).length).toNat ::
      UInt8.ofNat (prefixId kv.1).toNat :: UInt8.ofNat (UInt16.ofNat kv.2.length).toNat ::
      UInt8.ofNat ((UInt16.ofNat kv.2.length).toNat / 256) :: (shortName kv.1 ++ kv.2) := rfl

theorem encoded_length (kv : Bytes × Bytes) : (encoded kv).length = 4 + size kv := by
  rw [encoded_eq]
  simp [size]
  omega

/-- The text for a name index: none, the builtin table, or nothing known. -/
def prefixText (index : UInt8) : Option Bytes := ([] :: xattrBuiltinPrefixTable)[index.toNat]?

theorem prefixText_eq (index : UInt8) (name value : Bytes) :
    (match XattrPrefix.tryFrom index with
      | .error _ => none
      | .ok p => (getXattrPrefix ⟨p, name, value⟩).toOption) = prefixText index := by
  have h : ∀ n, n < 256 → (match XattrPrefix.tryFrom (UInt8.ofNat n) with
      | .error _ => none
      | .ok p => (getXattrPrefix ⟨p, [], []⟩).toOption) = prefixText (UInt8.ofNat n) := by
    decide +kernel
  have := h index.toNat index.toNat_lt
  rw [UInt8.ofNat_toNat] at this
  rw [← this]
  cases XattrPrefix.tryFrom index <;> rfl

def trim (data : Bytes) : Bytes := if data.length < 4 then [] else data

/-- The iterator goes through the data and finds exactly these pairs. -/
def Reads : Bytes → List (Bytes × Bytes) → Prop
  | data, [] => data = []
  | data, (key, value) :: kvs =>
    ∃ a b c d rest pre name, data = a :: b :: c :: d :: rest ∧ prefixText b = some pre ∧
      key = pre ++ name ∧ name.length = a.toNat ∧ value.length = c.toNat + 256 * d.toNat ∧
      name ++ value <+: rest ∧ roundUpTo 4 (name.length + value.length) ≤ rest.length ∧
      Reads (trim (rest.drop (roundUpTo 4 (name.length + value.length)))) kvs

def xattrPairs : List XattrItem → Except ErofsReader.Error (List (Bytes × Bytes))
  | [] => pure []
  | item :: items => do
    let pre ← getXattrPrefix item
    let pairs ← xattrPairs items
    pure ((pre ++ item.name, item.value) :: pairs)

theorem entry_fromPrefix {data : Bytes} {e : XattrEntry} {rest : Bytes} :
    XattrEntry.fromPrefix data = some (e, rest) ↔
      ∃ a b c d, data = a :: b :: c :: d :: rest ∧
        e = ⟨a, b, UInt16.ofNat (c.toNat + 256 * d.toNat)⟩ := by
  match data with
  | [] | [_] | [_, _] | [_, _, _] =>
    simp [XattrEntry.fromPrefix, takeU8, takeU16, takeNat, takeBytes]
  | a :: b :: c :: d :: r =>
    simp [XattrEntry.fromPrefix, takeU8, takeU16, takeNat, takeBytes, leNat, eq_comm, and_comm]

theorem takeBytes_iff {n : ℕ} {bs a rest : Bytes} :
    takeBytes n bs = some (a, rest) ↔ bs = a ++ rest ∧ a.length = n := by
  refine ⟨takeBytes_eq_some, ?_⟩
  rintro ⟨rfl, h⟩
  exact takeBytes_append a rest h

theorem reader_okOr_eq_ok {α : Type} {x : Option α} {e : ErofsReader.Error} {a : α} :
    ErofsReader.okOr x e = .ok a ↔ x = some a := by
  cases x <;> simp [ErofsReader.okOr]

theorem splitXattr_ok {data rest name value : Bytes} {e : XattrEntry} :
    splitXattr data = .ok (e, name, value, rest) ↔
      ∃ a b c d, data = a :: b :: c :: d :: rest ∧
        e = ⟨a, b, UInt16.ofNat (c.toNat + 256 * d.toNat)⟩ ∧ name.length = a.toNat ∧
        value.length = c.toNat + 256 * d.toNat ∧ name ++ value <+: rest := by
  have hval : ∀ c d : UInt8, (UInt16.ofNat (c.toNat + 256 * d.toNat)).toNat =
      c.toNat + 256 * d.toNat := by
    intro c d
    have := c.toNat_lt
    have := d.toNat_lt
    rw [UInt16.toNat_ofNat']
    omega
  simp only [splitXattr, except_bind_eq_ok, reader_okOr_eq_ok, Prod.exists, takeBytes_iff,
    entry_fromPrefix, except_pure_eq_ok, Prod.mk.injEq]
  constructor
  · rintro ⟨e', r, ⟨a, b, c, d, rfl, rfl⟩, n, r1, ⟨rfl, hn⟩, v, r2, ⟨rfl, hv⟩, rfl, rfl, rfl, rfl⟩
    refine ⟨a, b, c, d, rfl, rfl, hn, ?_, r2, by simp⟩
    rw [hv, hval]
  · rintro ⟨a, b, c, d, rfl, rfl, hn, hv, post, rfl⟩
    refine ⟨_, _, ⟨a, b, c, d, rfl, rfl⟩, name, value ++ post, ⟨by simp, hn⟩, value, post,
      ⟨rfl, ?_⟩, rfl, rfl, rfl, rfl⟩
    rw [hv, hval]

theorem reads_cons {data key value : Bytes} {kvs : List (Bytes × Bytes)} :
    Reads data ((key, value) :: kvs) ↔
      ∃ e name rest pre, splitXattr data = .ok (e, name, value, rest) ∧
        prefixText e.nameIndex = some pre ∧ key = pre ++ name ∧
        roundUpTo 4 (name.length + value.length) ≤ rest.length ∧
        Reads (trim (rest.drop (roundUpTo 4 (name.length + value.length)))) kvs := by
  simp only [Reads, splitXattr_ok]
  constructor
  · rintro ⟨a, b, c, d, rest, pre, name, rfl, hp, hk, hn, hv, hpre, hr, h⟩
    exact ⟨_, name, rest, pre, ⟨a, b, c, d, rfl, rfl, hn, hv, hpre⟩, hp, hk, hr, h⟩
  · rintro ⟨e, name, rest, pre, ⟨a, b, c, d, rfl, rfl, hn, hv, hpre⟩, hp, hk, hr, h⟩
    exact ⟨a, b, c, d, rest, pre, name, rfl, hp, hk, hn, hv, hpre, hr, h⟩

theorem nextUnshared_ok {data shared : Bytes} {item : XattrItem} {it : XattrsIterator} :
    XattrsIterator.nextUnshared ⟨data, shared, 0⟩ = (.ok item, it) ↔
      ∃ e rest p, splitXattr data = .ok (e, item.name, item.value, rest) ∧
        XattrPrefix.tryFrom e.nameIndex = .ok p ∧ item.pre = p ∧
        roundUpTo 4 (item.name.length + item.value.length) ≤ rest.length ∧
        it = ⟨trim (rest.drop (roundUpTo 4 (item.name.length + item.value.length))), shared, 0⟩ := by
  unfold XattrsIterator.nextUnshared
  cases hs : splitXattr data with
  | error e => simp
  | ok r =>
    obtain ⟨e, name, value, rest⟩ := r
    simp only [from?]
    split_ifs with hr
    · cases ht : XattrPrefix.tryFrom e.nameIndex with
      | error err =>
        constructor
        · intro h
          cases h
        · rintro ⟨e', rest', p, h1, h2, -⟩
          cases h1
          rw [ht] at h2
          cases h2
      | ok p =>
        constructor
        · intro h
          cases h
          exact ⟨e, rest, p, rfl, ht, rfl, hr, rfl⟩
        · rintro ⟨e', rest', p', h1, h2, h3, h4, rfl⟩
          cases item
          cases h1
          rw [ht] at h2
          cases h2
          cases h3
          rfl
    · constructor
      · intro h
        cases h
      · rintro ⟨e', rest', p', h1, h2, h3, h4, h5⟩
        cases item
        cases h1
        exact absurd h4 hr

theorem prefixText_of_tryFrom {index : UInt8} {item : XattrItem} {pre : Bytes}
    (h : XattrPrefix.tryFrom index = .ok item.pre) :
    getXattrPrefix item = .ok pre ↔ prefixText index = some pre := by
  have hp := prefixText_eq index item.name item.value
  rw [h] at hp
  have hp' : (getXattrPrefix item).toOption = prefixText index := hp
  rw [← hp']
  cases getXattrPrefix item <;> simp [Except.toOption]

theorem tryFrom_of_prefixText {index : UInt8} {pre : Bytes} (h : prefixText index = some pre) :
    ∃ p, XattrPrefix.tryFrom index = .ok p := by
  have hp := prefixText_eq index [] []
  rw [h] at hp
  cases ht : XattrPrefix.tryFrom index with
  | ok p => exact ⟨p, rfl⟩
  | error e =>
    rw [ht] at hp
    cases hp

theorem items_iff (fuel : ℕ) (data shared : Bytes) (kvs : List (Bytes × Bytes)) :
    (XattrsIterator.items fuel ⟨data, shared, 0⟩ >>= xattrPairs) = .ok kvs ↔
      Reads data kvs ∧ kvs.length < fuel := by
  induction fuel generalizing data kvs with
  | zero => simp [XattrsIterator.items, bind, Except.bind]
  | succ fuel ih =>
    by_cases hd : data = []
    · subst hd
      have hnil : XattrsIterator.items (fuel + 1) ⟨[], shared, 0⟩ = .ok [] := rfl
      rw [hnil]
      cases kvs <;> simp [Reads, xattrPairs, bind, Except.bind, pure, Except.pure]
    · have hnext : XattrsIterator.next ⟨data, shared, 0⟩ =
          some (XattrsIterator.nextUnshared ⟨data, shared, 0⟩) := by
        simp [XattrsIterator.next, hd]
      have hitems : ∀ items, XattrsIterator.items (fuel + 1) ⟨data, shared, 0⟩ = .ok items ↔
          ∃ item it rest, XattrsIterator.nextUnshared ⟨data, shared, 0⟩ = (.ok item, it) ∧
            XattrsIterator.items fuel it = .ok rest ∧ items = item :: rest := by
        intro items
        rw [XattrsIterator.items, hnext]
        rcases XattrsIterator.nextUnshared ⟨data, shared, 0⟩ with ⟨r, it⟩
        cases r with
        | error e => simp
        | ok item =>
          constructor
          · intro h
            obtain ⟨rest, hr, h⟩ := except_bind_eq_ok.mp h
            cases h
            exact ⟨item, it, rest, rfl, hr, rfl⟩
          · rintro ⟨item', it', rest, h, hr, rfl⟩
            cases h
            exact except_bind_eq_ok.mpr ⟨rest, hr, rfl⟩
      simp only [except_bind_eq_ok, hitems, nextUnshared_ok]
      cases kvs with
      | nil =>
        simp only [Reads, hd, false_and, iff_false]
        rintro ⟨items, ⟨item, it, rest, -, -, rfl⟩, h⟩
        obtain ⟨pre, -, h⟩ := except_bind_eq_ok.mp h
        obtain ⟨pairs, -, h⟩ := except_bind_eq_ok.mp h
        cases h
      | cons kv kvs =>
        obtain ⟨key, value⟩ := kv
        rw [reads_cons]
        constructor
        · rintro ⟨items, ⟨item, it, rest, ⟨e, r, p, hs, ht, rfl, hr, rfl⟩, hrest, rfl⟩, h⟩
          obtain ⟨pre, hpre, h⟩ := except_bind_eq_ok.mp h
          obtain ⟨pairs, hpairs, h⟩ := except_bind_eq_ok.mp h
          cases h
          have hih := (ih _ kvs).mp (except_bind_eq_ok.mpr ⟨rest, hrest, hpairs⟩)
          refine ⟨⟨e, item.name, r, pre, hs, (prefixText_of_tryFrom ht).mp hpre, rfl, hr, hih.1⟩, ?_⟩
          simpa using hih.2
        · rintro ⟨⟨e, name, rest, pre, hs, hp, rfl, hr, hreads⟩, hlen⟩
          obtain ⟨p, ht⟩ := tryFrom_of_prefixText hp
          obtain ⟨items, hitems', hpairs⟩ := except_bind_eq_ok.mp
            ((ih _ kvs).mpr ⟨hreads, by simpa using hlen⟩)
          refine ⟨⟨p, name, value⟩ :: items, ⟨⟨p, name, value⟩, _, items,
            ⟨e, rest, p, hs, ht, rfl, hr, rfl⟩, hitems', rfl⟩, ?_⟩
          have hpre : getXattrPrefix ⟨p, name, value⟩ = .ok pre :=
            (@prefixText_of_tryFrom _ ⟨p, name, value⟩ _ ht).mpr hp
          simp [xattrPairs, hpre, hpairs, bind, Except.bind, pure, Except.pure]

theorem builtin_cases (key : Bytes) :
    (∃ i, 1 ≤ i ∧ i ≤ 4 ∧ ∃ pre, xattrBuiltinPrefixTable[i - 1]? = some pre ∧ pre <+: key ∧
      prefixId key = UInt8.ofNat i ∧ prefixLen key = pre.length) ∨
    prefixId key = 5 ∧ prefixLen key = 0 := by
  simp only [prefixId, prefixLen, xattrBuiltinPrefix, xattrBuiltinPrefixTable, List.zipIdx_cons,
    List.findSome?_cons, List.isPrefixOf_iff_prefix]
  by_cases h1 : [117, 115, 101, 114, 46] <+: key
  · exact Or.inl ⟨1, by omega, by omega, _, rfl, h1, by simp [h1], by simp [h1]⟩
  by_cases h2 : [115, 121, 115, 116, 101, 109, 46, 112, 111, 115, 105, 120, 95, 97, 99, 108, 95, 97,
      99, 99, 101, 115, 115] <+: key
  · exact Or.inl ⟨2, by omega, by omega, _, rfl, h2, by simp [h1, h2], by simp [h1, h2]⟩
  by_cases h3 : [115, 121, 115, 116, 101, 109, 46, 112, 111, 115, 105, 120, 95, 97, 99, 108, 95, 100,
      101, 102, 97, 117, 108, 116] <+: key
  · exact Or.inl ⟨3, by omega, by omega, _, rfl, h3, by simp [h1, h2, h3], by simp [h1, h2, h3]⟩
  by_cases h4 : [116, 114, 117, 115, 116, 101, 100] <+: key
  · exact Or.inl ⟨4, by omega, by omega, _, rfl, h4, by simp [h1, h2, h3, h4],
      by simp [h1, h2, h3, h4]⟩
  · exact Or.inr (by simp [h1, h2, h3, h4])

/-- The index that the writer stores gives back the part it dropped. -/
theorem prefixText_prefixId (key : Bytes) :
    prefixText (prefixId key) = some (key.take (prefixLen key)) := by
  rcases builtin_cases key with ⟨i, h1, h4, pre, hpre, hkey, hid, hlen⟩ | ⟨hid, hlen⟩
  · obtain ⟨rest, rfl⟩ := hkey
    rw [hid, hlen, List.take_left']
    · have : i = 1 ∨ i = 2 ∨ i = 3 ∨ i = 4 := by omega
      rcases this with rfl | rfl | rfl | rfl <;> exact hpre
    · rfl
  · rw [hid, hlen]
    rfl

def security : Bytes := [115, 101, 99, 117, 114, 105, 116, 121, 46]

theorem prefixText_cases {index : UInt8} {pre : Bytes} (h : prefixText index = some pre) :
    pre = [] ∨ (∃ i, 1 ≤ i ∧ i ≤ 4 ∧ xattrBuiltinPrefixTable[i - 1]? = some pre) ∨
      pre = security ∧ index = 6 := by
  have hlt : index.toNat < 7 := by
    by_contra hn
    rw [prefixText, List.getElem?_eq_none (by simp [xattrBuiltinPrefixTable]; omega)] at h
    cases h
  have hi : index = UInt8.ofNat index.toNat := UInt8.ofNat_toNat.symm
  rw [prefixText] at h
  generalize hn : index.toNat = n at h hlt hi
  interval_cases n
  · exact Or.inl (by simpa using h.symm)
  · exact Or.inr (Or.inl ⟨1, by omega, by omega, h⟩)
  · exact Or.inr (Or.inl ⟨2, by omega, by omega, h⟩)
  · exact Or.inr (Or.inl ⟨3, by omega, by omega, h⟩)
  · exact Or.inr (Or.inl ⟨4, by omega, by omega, h⟩)
  · exact Or.inl (by simpa [xattrBuiltinPrefixTable] using h.symm)
  · exact Or.inr (Or.inr ⟨(Option.some.inj h).symm, hi⟩)

theorem builtin_prefixLen {i : ℕ} (h1 : 1 ≤ i) (h4 : i ≤ 4) {pre : Bytes}
    (hpre : xattrBuiltinPrefixTable[i - 1]? = some pre) (name : Bytes) :
    prefixLen (pre ++ name) = pre.length := by
  have : i = 1 ∨ i = 2 ∨ i = 3 ∨ i = 4 := by omega
  rcases this with rfl | rfl | rfl | rfl <;> cases hpre <;> rfl

/-- What a reader can find for a key, against what the writer stored: the same
name, a longer one, or one that is short of `security.`. -/
theorem name_cases {index : UInt8} {pre name key : Bytes} (h : prefixText index = some pre)
    (hk : key = pre ++ name) :
    name = shortName key ∧ pre.length = prefixLen key ∨
      (shortName key).length + 5 ≤ name.length ∨
      index = 6 ∧ shortName key = security ++ name := by
  subst hk
  rcases prefixText_cases h with rfl | ⟨i, h1, h4, hi⟩ | ⟨rfl, hi⟩
  · rcases builtin_cases ([] ++ name) with ⟨i, h1, h4, pre, hpre, hkey, -, hlen⟩ | ⟨-, hlen⟩
    · refine Or.inr (Or.inl ?_)
      have hp5 : 5 ≤ pre.length := by
        have : i = 1 ∨ i = 2 ∨ i = 3 ∨ i = 4 := by omega
        rcases this with rfl | rfl | rfl | rfl <;> cases hpre <;> decide
      have := hkey.length_le
      simp only [shortName, hlen, List.length_drop, List.nil_append] at *
      omega
    · exact Or.inl ⟨by rw [shortName, hlen]; rfl, by rw [hlen]; rfl⟩
  · have hlen := builtin_prefixLen h1 h4 hi name
    exact Or.inl ⟨by simp [shortName, hlen], hlen.symm⟩
  · have hlen : prefixLen (security ++ name) = 0 := rfl
    exact Or.inr (Or.inr ⟨hi, by simp [shortName, hlen]⟩)

/-! ## The namespace of a key -/

section Namespaces

/-- Entry `i` of the table, counted from one, is not empty and is the longest
that the key starts with. -/
def BuiltinIndex (key : Bytes) (i : ℕ) : Prop :=
  ∃ pre, 1 ≤ i ∧ xattrBuiltinPrefixTable[i - 1]? = some pre ∧ pre ≠ [] ∧ pre <+: key ∧
    ∀ other ∈ xattrBuiltinPrefixTable, other <+: key → other.length ≤ pre.length

structure NamespaceOf (key : Bytes) (e : XattrEntry) : Prop where
  index : ∀ i, 1 ≤ i → (e.nameIndex.toNat = i ↔ BuiltinIndex key i)
  whole : (∀ i, ¬ BuiltinIndex key i) → e.nameIndex = 0 ∧ e.nameLen.toNat = key.length

def Reachable (key : Bytes) : Prop := ∃ pre ∈ xattrBuiltinPrefixTable.take 4, pre <+: key

theorem table_prefix_free : ∀ a ∈ xattrBuiltinPrefixTable, ∀ b ∈ xattrBuiltinPrefixTable,
    a ≠ [] → a <+: b → a = b := by
  decide

theorem builtin_unique {a b key : Bytes} (ha : a ∈ xattrBuiltinPrefixTable)
    (hb : b ∈ xattrBuiltinPrefixTable) (ha0 : a ≠ []) (hb0 : b ≠ []) (hak : a <+: key)
    (hbk : b <+: key) : a = b := by
  rcases List.prefix_or_prefix_of_prefix hak hbk with h | h
  · exact table_prefix_free a ha b hb ha0 h
  · exact (table_prefix_free b hb a ha hb0 h).symm

theorem builtinIndex_iff {key pre : Bytes} {i : ℕ} (h1 : 1 ≤ i)
    (hpre : xattrBuiltinPrefixTable[i - 1]? = some pre) (h0 : pre ≠ []) (hkey : pre <+: key)
    (j : ℕ) : BuiltinIndex key j ↔ j = i := by
  have hmem := List.mem_of_getElem? hpre
  constructor
  · rintro ⟨pre', hj, hpre', h0', hkey', -⟩
    obtain rfl := builtin_unique (List.mem_of_getElem? hpre') hmem h0' h0 hkey' hkey
    have hnodup : xattrBuiltinPrefixTable.Nodup := by decide
    have hlt : j - 1 < xattrBuiltinPrefixTable.length := (List.getElem?_eq_some_iff.mp hpre').1
    have := (List.getElem?_inj hlt hnodup).mp (hpre'.trans hpre.symm)
    omega
  · rintro rfl
    refine ⟨pre, h1, hpre, h0, hkey, ?_⟩
    intro other hother hok
    by_cases ho : other = []
    · simp [ho]
    · rw [builtin_unique hother hmem ho h0 hok hkey]

theorem reachable_iff (key : Bytes) : Reachable key ↔ prefixLen key ≠ 0 := by
  constructor
  · rintro ⟨pre, hmem, rest, rfl⟩
    have hne : ∀ pre ∈ xattrBuiltinPrefixTable.take 4, pre.length ≠ 0 := by decide
    obtain ⟨n, hn⟩ := List.mem_iff_getElem?.mp hmem
    rw [List.getElem?_take] at hn
    split_ifs at hn with hn4
    rw [@builtin_prefixLen (n + 1) (by omega) (by omega) pre hn rest]
    exact hne pre hmem
  · intro hlen
    rcases builtin_cases key with ⟨i, h1, h4, pre, hpre, hkey, -, -⟩ | ⟨-, h0⟩
    · refine ⟨pre, List.mem_of_getElem? (i := i - 1) ?_, hkey⟩
      rw [List.getElem?_take_of_lt (by omega), hpre]
    · exact absurd h0 hlen

theorem namespaceOf_iff {key value : Bytes} {e : ℕ × XattrEntry}
    (h : makeXattrEntry key value = .ok e) : NamespaceOf key e.2 ↔ Reachable key := by
  obtain ⟨-, hid, -, -⟩ := makeXattrEntry_ok h
  change e.2.nameIndex = prefixId key at hid
  rcases builtin_cases key with ⟨i, h1, h4, pre, hpre, hkey, hpid, hlen⟩ | ⟨hpid, hlen⟩
  · have h0 : pre ≠ [] := by
      rintro rfl
      have hi : i = 1 ∨ i = 2 ∨ i = 3 ∨ i = 4 := by omega
      rcases hi with rfl | rfl | rfl | rfl <;> cases hpre
    have hindex := builtinIndex_iff h1 hpre h0 hkey
    refine ⟨fun _ => (reachable_iff key).mpr (by simpa [hlen] using h0), fun _ => ⟨?_, ?_⟩⟩
    · intro j hj
      rw [hindex, hid, hpid, UInt8.toNat_ofNat', Nat.mod_eq_of_lt (by omega)]
      exact eq_comm
    · intro hnone
      exact absurd ((hindex i).mpr rfl) (hnone i)
  · refine ⟨fun hns => ?_, fun hr => absurd hlen ((reachable_iff key).mp hr)⟩
    -- the empty entry stops the scan, and it is not one the key may be filed under
    have h5 : e.2.nameIndex.toNat = 5 := by rw [hid, hpid]; rfl
    obtain ⟨pre, -, hpre, h0, -⟩ := (hns.index 5 (by omega)).mp h5
    exact absurd (Option.some.inj hpre).symm h0

/-- Every key that the first four entries of the table do not cover is filed
under the empty entry: also the keys of `security.` and those of no namespace. -/
theorem xattr_namespace_iff {kvs : List (Bytes × Bytes)} {entries : List (ℕ × XattrEntry)}
    (h : makeXattrEntries kvs = .ok entries) :
    List.Forall₂ (fun kv e => NamespaceOf kv.1 e.2 ↔ Reachable kv.1) kvs entries := by
  induction kvs generalizing entries with
  | nil =>
    cases h
    exact .nil
  | cons kv kvs ih =>
    obtain ⟨e, he, h⟩ := except_bind_eq_ok.mp h
    obtain ⟨es, hes, h⟩ := except_bind_eq_ok.mp h
    cases h
    exact .cons (namespaceOf_iff he) (ih hes)

def userKey : Bytes := [117, 115, 101, 114, 46, 97]

def securityKey : Bytes := security ++ [97]

theorem xattr_namespace_user :
    makeXattrEntries [(userKey, [49])] = .ok [(5, ⟨1, 1, 1⟩)] ∧ Reachable userKey ∧
      List.Forall₂ (fun (kv : Bytes × Bytes) e => NamespaceOf kv.1 e.2 ↔ Reachable kv.1)
        [(userKey, [49])] [(5, ⟨1, 1, 1⟩)] :=
  ⟨rfl, ⟨_, List.mem_cons_self, by decide⟩, xattr_namespace_iff rfl⟩

/-- A `security.` key gets the index of the empty entry and keeps its whole name. -/
theorem security_key_misfiled :
    makeXattrEntries [(securityKey, [49])] = .ok [(0, ⟨10, 5, 1⟩)] ∧ BuiltinIndex securityKey 6 ∧
      ¬ NamespaceOf securityKey ⟨10, 5, 1⟩ := by
  have h6 : BuiltinIndex securityKey 6 :=
    (@builtinIndex_iff securityKey security 6 (by decide) rfl (by decide) (by decide) 6).mpr rfl
  refine ⟨rfl, h6, fun h => ?_⟩
  exact absurd ((h.index 6 (by decide)).mpr h6) (by decide)

end Namespaces

end ProgramExplorer.ErofsXattrs
