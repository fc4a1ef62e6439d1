import ProgramExplorer.ErofsXattrs
import ProgramExplorer.InputLoop

/-!
# The iterators of the reader on arbitrary bytes

Both iterators take their next position from the bytes they read. The xattr
iterator moves on only after a record has been read in full, so one that does
not fit is met again by every later call. The dirent iterator always moves on,
but it trusts the name offsets: they may decrease, which makes the length of a
name negative, or point beyond the block.
-/

set_option autoImplicit false

namespace ProgramExplorer.ErofsIterators
open ByteStrings ByteStore LittleEndian InputLoop StateRules ErofsDisk ErofsReader
open ErofsXattrs

section Xattrs

def xattrStep (it : XattrsIterator) : Next XattrsIterator Unit :=
  match it.next with
  | some (_, it) => .again it
  | none => .done ()

/-- What is left after the record at the front, if all of it is there. -/
def afterRecord (data : Bytes) : Option Bytes := do
  let (entry, rest) ← XattrEntry.fromPrefix data
  let rest ← from? rest (roundUpTo 4 (entry.nameLen.toNat + entry.valueSize.toNat))
  pure (trim rest)

/-- Records one after the other, each with its name and value padded to a
multiple of four. A record with neither needs four bytes behind it as well,
since zero is rounded up to four. Fewer than four bytes after a record are
padding, but alone they are not. -/
inductive Records : Bytes → Prop
  | nil : Records []
  | cons {data rest : Bytes} (h : afterRecord data = some rest) (hr : Records rest) : Records data

theorem le_roundUpTo (n : ℕ) : n ≤ roundUpTo 4 n := by
  unfold roundUpTo
  split_ifs <;> omega

theorem splitXattr_eq {data rest : Bytes} {entry : XattrEntry}
    (h : XattrEntry.fromPrefix data = some (entry, rest)) :
    splitXattr data =
      if entry.nameLen.toNat + entry.valueSize.toNat ≤ rest.length then
        .ok (entry, rest.take entry.nameLen.toNat,
          (rest.drop entry.nameLen.toNat).take entry.valueSize.toNat, rest)
      else .error .oob := by
  unfold splitXattr
  rw [h]
  change (ErofsReader.okOr (takeBytes entry.nameLen.toNat rest) .oob >>= _) = _
  unfold takeBytes
  by_cases hn : entry.nameLen.toNat ≤ rest.length
  · rw [if_pos hn]
    change (ErofsReader.okOr (takeBytes entry.valueSize.toNat (rest.drop entry.nameLen.toNat)) .oob
      >>= _) = _
    unfold takeBytes
    rw [List.length_drop]
    split_ifs with h₁ h₂ h₂
    · rfl
    · omega
    · omega
    · rfl
  · rw [if_neg hn, if_neg (by omega)]
    rfl

theorem nextUnshared_state (it : XattrsIterator) :
    it.nextUnshared.2 = { it with data := (afterRecord it.data).getD it.data } := by
  unfold XattrsIterator.nextUnshared afterRecord
  cases hp : XattrEntry.fromPrefix it.data with
  | none =>
    have hsplit : splitXattr it.data = .error .badConversion := by
      unfold splitXattr
      rw [hp]
      rfl
    rw [hsplit]
    rfl
  | some p =>
    obtain ⟨entry, rest⟩ := p
    have hround := le_roundUpTo (entry.nameLen.toNat + entry.valueSize.toNat)
    rw [splitXattr_eq hp]
    change _ = { it with data := ((from? rest _ >>= fun rest => pure (trim rest)).getD it.data) }
    by_cases hfit : entry.nameLen.toNat + entry.valueSize.toNat ≤ rest.length
    · have hlen : (rest.take entry.nameLen.toNat).length +
          ((rest.drop entry.nameLen.toNat).take entry.valueSize.toNat).length =
          entry.nameLen.toNat + entry.valueSize.toNat := by
        simp only [List.length_take, List.length_drop]
        omega
      simp only [if_pos hfit, hlen]
      cases from? rest (roundUpTo 4 (entry.nameLen.toNat + entry.valueSize.toNat)) <;> rfl
    · have hnone : from? rest (roundUpTo 4 (entry.nameLen.toNat + entry.valueSize.toNat)) = none :=
        if_neg (by omega)
      rw [if_neg hfit, hnone]
      rfl

theorem nextShared_state (it : XattrsIterator) :
    it.nextShared.2 = ⟨it.data.drop (if 4 ≤ it.data.length then 4 else 0), it.sharedData,
      it.sharedRemaining - 1⟩ := by
  unfold XattrsIterator.nextShared takeU32 takeNat takeBytes
  split_ifs with h
  · rfl
  · rfl

/-- The region without the indices of shared entries; a region that is too
short for all of them is read up to its last whole index. -/
def unsharedPart (it : XattrsIterator) : Bytes :=
  it.data.drop (4 * min it.sharedRemaining (it.data.length / 4))

theorem ends_unshared (data shared : Bytes) : Ends xattrStep ⟨data, shared, 0⟩ ↔ Records data := by
  constructor
  · rintro ⟨n, hn⟩
    induction n generalizing data with
    | zero => cases hn
    | succ n ih =>
      by_cases hd : data = []
      · exact hd ▸ .nil
      have hstep : xattrStep ⟨data, shared, 0⟩ = .again ⟨(afterRecord data).getD data, shared, 0⟩ := by
        simp [xattrStep, XattrsIterator.next, hd, nextUnshared_state]
      rw [runFor, hstep] at hn
      have hrest := ih _ hn
      cases hr : afterRecord data with
      | none => rwa [hr] at hrest
      | some rest =>
        rw [hr] at hrest
        exact .cons hr hrest
  · intro h
    induction h with
    | nil => exact ends_done rfl
    | @cons data rest hr _ ih =>
      have hd : data ≠ [] := by
        rintro rfl
        cases hr
      have hstep : xattrStep ⟨data, shared, 0⟩ = .again ⟨rest, shared, 0⟩ := by
        simp [xattrStep, XattrsIterator.next, hd, nextUnshared_state, hr]
      exact (ends_again hstep).mpr ih

/-- The iteration reaches `None` exactly if the entries after the indices of
the shared ones can be read to the end of the region. -/
theorem xattr_iteration_ends_iff (it : XattrsIterator) :
    Ends xattrStep it ↔ Records (unsharedPart it) := by
  obtain ⟨data, shared, remaining⟩ := it
  induction remaining generalizing data with
  | zero => simpa [unsharedPart] using ends_unshared data shared
  | succ n ih =>
    have hstep : xattrStep ⟨data, shared, n + 1⟩ =
        .again ⟨data.drop (if 4 ≤ data.length then 4 else 0), shared, n⟩ := by
      simp [xattrStep, XattrsIterator.next, nextShared_state]
    have hpart : unsharedPart ⟨data.drop (if 4 ≤ data.length then 4 else 0), shared, n⟩ =
        unsharedPart ⟨data, shared, n + 1⟩ := by
      simp only [unsharedPart, List.drop_drop, List.length_drop]
      congr 1
      split_ifs <;> omega
    rw [ends_again hstep, ih, hpart]

/-- A single record whose name does not fit is returned as an error forever. -/
theorem long_name_never_ends : ¬ Ends xattrStep ⟨[255, 0, 0, 0], [], 0⟩ := by
  rw [ends_unshared]
  intro h
  cases h with
  | cons hr _ => cases hr

end Xattrs

section Dirents

def direntStep (it : DirentsIterator) : Next DirentsIterator (Except Error Unit) :=
  if it.i < it.count then
    match it.nextImpl with
    | .ok (_, it) => .again it
    | .error e => .done (.error e)
  else .done (.ok ())

def blockEnd (it : DirentsIterator) : ℕ := min it.data.length it.blockSize

inductive Moves (it : DirentsIterator) : Except Error (DirentItem × DirentsIterator) → Prop
  | failed {e : Error} (he : e ≠ .panicked) : Moves it (.error e)
  | underflow {a b : DiskDirent} {fileType : DirentFileType} (hi : it.i + 1 < it.count)
      (ha : it.get it.i = .ok a) (hf : DirentFileType.tryFrom a.fileType = some fileType)
      (hb : it.get (it.i + 1) = .ok b) (hlt : b.nameOffset.toNat < a.nameOffset.toNat) :
      Moves it (.error .panicked)
  | middle {a b : DiskDirent} {fileType : DirentFileType} (hi : it.i + 1 < it.count)
      (ha : it.get it.i = .ok a) (hf : DirentFileType.tryFrom a.fileType = some fileType)
      (hb : it.get (it.i + 1) = .ok b) (hle : a.nameOffset.toNat ≤ b.nameOffset.toNat)
      (hend : b.nameOffset.toNat ≤ it.data.length) :
      Moves it (.ok (⟨a.diskId, fileType, (it.data.drop a.nameOffset.toNat).take
        (b.nameOffset.toNat - a.nameOffset.toNat)⟩, { it with i := it.i + 1 }))
  | last {a : DiskDirent} {fileType : DirentFileType} {it' : DirentsIterator}
      (hi : ¬ it.i + 1 < it.count) (ha : it.get it.i = .ok a)
      (hf : DirentFileType.tryFrom a.fileType = some fileType)
      (hle : a.nameOffset.toNat ≤ blockEnd it)
      (hr : DirentsIterator.resetCount { it with data := it.data.drop (blockEnd it) } = .ok it') :
      Moves it (.ok (⟨a.diskId, fileType, ((it.data.drop a.nameOffset.toNat).take
        (blockEnd it - a.nameOffset.toNat)).takeWhile (· ≠ 0)⟩, it'))

theorem get_ne_panicked (it : DirentsIterator) (i : ℕ) : it.get i ≠ .error .panicked := by
  intro h
  unfold DirentsIterator.get at h
  cases hf : from? it.data (i * 12) with
  | none =>
    rw [hf] at h
    cases h
  | some data =>
    rw [hf] at h
    change (ErofsReader.okOr (DiskDirent.fromPrefix data) .badConversion >>= _) = _ at h
    cases hp : DiskDirent.fromPrefix data with
    | none =>
      rw [hp] at h
      cases h
    | some p =>
      rw [hp] at h
      cases h

theorem countRecords_cases (it : DirentsIterator) :
    (∃ e, e ≠ .panicked ∧ it.countRecords = .error e) ∨
      ∃ a, it.get 0 = .ok a ∧ 12 ∣ a.nameOffset.toNat ∧
        it.countRecords = .ok { it with i := 0, count := a.nameOffset.toNat / 12 } := by
  unfold DirentsIterator.countRecords DirentsIterator.get
  have hfrom : from? it.data (0 * 12) = some it.data := by simp [from?]
  rw [hfrom]
  change (∃ e, _ ∧ _) ∨ ∃ a, (ErofsReader.okOr (DiskDirent.fromPrefix it.data) .badConversion >>= _) = _ ∧ _
  cases hp : DiskDirent.fromPrefix it.data with
  | none => exact Or.inl ⟨.badConversion, by simp, rfl⟩
  | some p =>
    obtain ⟨a, rest⟩ := p
    rw [okOr_some_bind]
    by_cases hmod : a.nameOffset.toNat % 12 = 0
    · refine Or.inr ⟨a, rfl, Nat.dvd_of_mod_eq_zero hmod, ?_⟩
      exact if_neg (not_not_intro hmod)
    · refine Or.inl ⟨.direntBadSize, by simp, ?_⟩
      exact if_pos hmod

def left (it : DirentsIterator) : ℕ := it.data.length + (it.remaining.getD []).length

def Counted (it : DirentsIterator) : Prop :=
  it.i < it.count → ∃ a, it.get it.i = .ok a ∧ 12 * it.count ≤ a.nameOffset.toNat

theorem counted_of_first {it : DirentsIterator} {a : DiskDirent} (ha : it.get 0 = .ok a)
    (hd : 12 ∣ a.nameOffset.toNat) : Counted { it with i := 0, count := a.nameOffset.toNat / 12 } := by
  intro _
  refine ⟨a, ha, ?_⟩
  change 12 * (a.nameOffset.toNat / 12) ≤ _
  omega

structure Fresh (it it' : DirentsIterator) : Prop where
  blockSize : it'.blockSize = it.blockSize
  left : left it' = left it
  count : it'.count ≤ 5461
  counted : Counted it'

theorem countRecords_fresh {it it' : DirentsIterator} (h : it.countRecords = .ok it') : Fresh it it' := by
  rcases countRecords_cases it with ⟨e, -, he⟩ | ⟨a, ha, hd, hc⟩
  · rw [he] at h
    cases h
  · rw [hc] at h
    cases h
    have hlt := a.nameOffset.toNat_lt
    refine ⟨rfl, rfl, ?_, counted_of_first ha hd⟩
    change a.nameOffset.toNat / 12 ≤ 5461
    omega

theorem countRecords_ne_panicked (it : DirentsIterator) : it.countRecords ≠ .error .panicked := by
  rcases countRecords_cases it with ⟨e, hne, he⟩ | ⟨a, -, -, hc⟩
  · rw [he]
    simpa using hne
  · rw [hc]
    simp

theorem resetCount_fresh {it it' : DirentsIterator} (h : it.resetCount = .ok it') : Fresh it it' := by
  unfold DirentsIterator.resetCount at h
  simp only at h
  split_ifs at h with h₁ h₂
  · cases h
    refine ⟨rfl, by simp [left, h₁, h₂], by simp, fun hlt => absurd hlt (Nat.lt_irrefl 0)⟩
  · obtain ⟨hb, hl, hcount, hcounted⟩ := countRecords_fresh h
    exact ⟨hb, hl.trans (by simp [left, h₁]), hcount, hcounted⟩
  · exact countRecords_fresh h

theorem resetCount_ne_panicked (it : DirentsIterator) : it.resetCount ≠ .error .panicked := by
  unfold DirentsIterator.resetCount
  simp only
  split_ifs
  · exact fun h => by cases h
  · exact countRecords_ne_panicked _
  · exact countRecords_ne_panicked _

/-- The name of a record ends where the next one starts, or with its block. -/
theorem nextImpl_of_dirent {it : DirentsIterator} {a : DiskDirent} {fileType : DirentFileType}
    (ha : it.get it.i = .ok a) (hf : DirentFileType.tryFrom a.fileType = some fileType) :
    it.nextImpl =
      if it.i + 1 < it.count then
        it.get (it.i + 1) >>= fun b =>
          if b.nameOffset.toNat < a.nameOffset.toNat then .error .panicked
          else ErofsReader.okOr (slice? it.data a.nameOffset.toNat b.nameOffset.toNat) .oob >>= fun name =>
            .ok (⟨a.diskId, fileType, name⟩, { it with i := it.i + 1 })
      else
        ErofsReader.okOr (slice? it.data a.nameOffset.toNat (blockEnd it)) .oob >>= fun name =>
          DirentsIterator.resetCount { it with data := it.data.drop (blockEnd it) } >>= fun it' =>
            .ok (⟨a.diskId, fileType, name.takeWhile (· ≠ 0)⟩, it') := by
  unfold DirentsIterator.nextImpl
  rw [ha]
  change (ErofsReader.okOr (DirentFileType.tryFrom a.fileType) .badFileType >>= _) = _
  rw [hf]
  rfl

theorem nextImpl_of_next {it : DirentsIterator} {a b : DiskDirent} {fileType : DirentFileType}
    (hi : it.i + 1 < it.count) (ha : it.get it.i = .ok a)
    (hf : DirentFileType.tryFrom a.fileType = some fileType) (hb : it.get (it.i + 1) = .ok b) :
    it.nextImpl =
      if b.nameOffset.toNat < a.nameOffset.toNat then .error .panicked
      else if b.nameOffset.toNat ≤ it.data.length then
        .ok (⟨a.diskId, fileType, (it.data.drop a.nameOffset.toNat).take
          (b.nameOffset.toNat - a.nameOffset.toNat)⟩, { it with i := it.i + 1 })
      else .error .oob := by
  rw [nextImpl_of_dirent ha hf, if_pos hi, hb]
  change (if b.nameOffset.toNat < a.nameOffset.toNat then _ else _) = _
  by_cases hlt : b.nameOffset.toNat < a.nameOffset.toNat
  · rw [if_pos hlt, if_pos hlt]
  · rw [if_neg hlt, if_neg hlt, slice?]
    by_cases hend : b.nameOffset.toNat ≤ it.data.length
    · rw [if_pos hend, if_pos ⟨by omega, hend⟩]
      rfl
    · rw [if_neg hend, if_neg (by omega)]
      rfl

theorem nextImpl_moves (it : DirentsIterator) : Moves it it.nextImpl := by
  cases ha : it.get it.i with
  | error e =>
    unfold DirentsIterator.nextImpl
    rw [ha]
    refine .failed ?_
    rintro rfl
    exact get_ne_panicked _ _ ha
  | ok a =>
  cases hf : DirentFileType.tryFrom a.fileType with
  | none =>
    unfold DirentsIterator.nextImpl
    rw [ha]
    change Moves it (ErofsReader.okOr (DirentFileType.tryFrom a.fileType) .badFileType >>= _)
    rw [hf]
    exact .failed (by simp)
  | some fileType =>
  by_cases hi : it.i + 1 < it.count
  · cases hb : it.get (it.i + 1) with
    | error e =>
      rw [nextImpl_of_dirent ha hf, if_pos hi, hb]
      refine .failed ?_
      rintro rfl
      exact get_ne_panicked _ _ hb
    | ok b =>
      rw [nextImpl_of_next hi ha hf hb]
      split_ifs with hlt hend
      · exact .underflow hi ha hf hb hlt
      · exact .middle hi ha hf hb (by omega) hend
      · exact .failed (by simp)
  · rw [nextImpl_of_dirent ha hf, if_neg hi]
    by_cases hle : a.nameOffset.toNat ≤ blockEnd it
    · rw [slice?, if_pos ⟨hle, min_le_left _ _⟩, okOr_some_bind]
      cases hr : DirentsIterator.resetCount { it with data := it.data.drop (blockEnd it) } with
      | error e =>
        refine .failed ?_
        rintro rfl
        exact resetCount_ne_panicked _ hr
      | ok it' => exact .last hi ha hf hle hr
    · rw [slice?, if_neg fun h => hle h.1]
      exact .failed (by simp)

theorem get_pos {it : DirentsIterator} {i : ℕ} {a : DiskDirent} (h : it.get i = .ok a) :
    0 < it.data.length := by
  by_contra hn
  have hnil : it.data = [] := List.eq_nil_of_length_eq_zero (by omega)
  unfold DirentsIterator.get at h
  rw [hnil] at h
  cases i with
  | zero => cases h
  | succ i =>
    have hfrom : from? [] ((i + 1) * 12) = none := if_neg (by simp)
    rw [hfrom] at h
    cases h

def direntsLeft (it : DirentsIterator) : ℕ := left it * 5462 + (it.count - it.i)

theorem direntStep_again {it it' : DirentsIterator} (h : direntStep it = .again it') :
    it.i < it.count ∧ ∃ item, it.nextImpl = .ok (item, it') := by
  unfold direntStep at h
  split_ifs at h with hi
  refine ⟨hi, ?_⟩
  cases hn : it.nextImpl with
  | error e =>
    rw [hn] at h
    cases h
  | ok p =>
    rw [hn] at h
    cases h
    exact ⟨p.1, rfl⟩

theorem direntsLeft_lt {it it' : DirentsIterator} (hb : 0 < it.blockSize)
    (h : direntStep it = .again it') :
    0 < it'.blockSize ∧ direntsLeft it' < direntsLeft it := by
  obtain ⟨hi, item, hn⟩ := direntStep_again h
  have hm := nextImpl_moves it
  rw [hn] at hm
  cases hm with
  | middle =>
    refine ⟨hb, ?_⟩
    simp only [direntsLeft, left]
    omega
  | last hlast ha hf hle hr =>
    obtain ⟨hsize, hleft, hcount, -⟩ := resetCount_fresh hr
    have hpos := get_pos ha
    refine ⟨hsize.symm ▸ hb, ?_⟩
    have hdrop : left { it with data := it.data.drop (blockEnd it) } < left it := by
      simp only [left, blockEnd, List.length_drop]
      omega
    simp only [direntsLeft]
    omega

theorem dirents_end {it : DirentsIterator} (hb : 0 < it.blockSize) : Ends direntStep it :=
  ends_of_decreases (μ := direntsLeft) (fun it => 0 < it.blockSize)
    (fun _ _ hb h => direntsLeft_lt hb h) hb

/-- The record and the name of an item lie in the block that the iterator is in. -/
def InBlock (it : DirentsIterator) (item : DirentItem) : Prop :=
  ∃ a, it.get it.i = .ok a ∧ 12 * (it.i + 1) ≤ blockEnd it ∧
    HasAt it.data a.nameOffset.toNat item.name ∧
    a.nameOffset.toNat + item.name.length ≤ blockEnd it

structure SafeIteration (it : DirentsIterator) : Prop where
  ends : Ends direntStep it
  noUnderflow : ∀ t, Reached direntStep it t → direntStep t ≠ .done (.error .panicked)
  inBlock : ∀ t item t', Reached direntStep it t → t.i < t.count → t.nextImpl = .ok (item, t') →
    InBlock t item

/-- Two records of a block in a row: the name between them neither ends
before it begins nor, if the bytes go that far, beyond the block. -/
def InOrder (it : DirentsIterator) : Prop :=
  it.i + 1 < it.count → ∀ a b, it.get it.i = .ok a → it.get (it.i + 1) = .ok b →
    (DirentFileType.tryFrom a.fileType).isSome →
      a.nameOffset ≤ b.nameOffset ∧
        (b.nameOffset.toNat ≤ it.data.length → b.nameOffset.toNat ≤ it.blockSize)

theorem counted_step {it it' : DirentsIterator} (hc : Counted it) (h : direntStep it = .again it') :
    Counted it' := by
  obtain ⟨hi, item, hn⟩ := direntStep_again h
  have hm := nextImpl_moves it
  rw [hn] at hm
  cases hm with
  | @middle a b fileType hnext ha hf hb hle hend =>
    obtain ⟨a', ha', hcount⟩ := hc hi
    rw [ha] at ha'
    cases ha'
    exact fun _ => ⟨b, hb, hcount.trans hle⟩
  | last hlast ha hf hle hr => exact (resetCount_fresh hr).counted

theorem hasAt_shorter {data bs cs : Bytes} {off : ℕ} (h : HasAt data off bs) (hp : cs <+: bs) :
    HasAt data off cs := by
  obtain ⟨rest, rfl⟩ := hp
  exact ((hasAt_append data off cs rest).mp h).1

theorem inBlock_of_le {it : DirentsIterator} {a : DiskDirent} {item : DirentItem} (hc : Counted it)
    (hi : it.i < it.count) (ha : it.get it.i = .ok a) {n : ℕ}
    (hname : item.name <+: (it.data.drop a.nameOffset.toNat).take n)
    (hle : a.nameOffset.toNat + n ≤ blockEnd it) : InBlock it item := by
  obtain ⟨a', ha', hcount⟩ := hc hi
  rw [ha] at ha'
  cases ha'
  have hlen := hname.length_le
  simp only [List.length_take] at hlen
  exact ⟨a, ha, by omega, hasAt_shorter (hasAt_take_drop _ _ _) hname, by omega⟩

theorem direntStep_panicked {it : DirentsIterator} (h : direntStep it = .done (.error .panicked)) :
    it.nextImpl = .error .panicked := by
  unfold direntStep at h
  split_ifs at h
  · cases hn : it.nextImpl with
    | error e =>
      rw [hn] at h
      cases h
      rfl
    | ok p =>
      rw [hn] at h
      cases h
  · cases h

theorem inOrder_of_safe {it t : DirentsIterator} (h : SafeIteration it) (hr : Reached direntStep it t) :
    InOrder t := by
  intro hi a b ha hb hf
  have hlt : t.i < t.count := by omega
  obtain ⟨fileType, hf⟩ := Option.isSome_iff_exists.mp hf
  have hn := nextImpl_of_next hi ha hf hb
  have hle : a.nameOffset.toNat ≤ b.nameOffset.toNat := by
    by_contra hgt
    rw [if_pos (by omega)] at hn
    refine h.noUnderflow t hr ?_
    rw [direntStep, if_pos hlt, hn]
  refine ⟨hle, fun hend => ?_⟩
  rw [if_neg (by omega), if_pos hend] at hn
  obtain ⟨a', ha', -, -, hblock⟩ := h.inBlock t _ _ hr hlt hn
  rw [ha] at ha'
  cases ha'
  simp only [List.length_take, List.length_drop, blockEnd] at hblock
  omega

/-- For the bytes of a directory, iterating is safe exactly if the offsets of
the records it comes to are in order and in their block. -/
theorem dirent_iteration_safe_iff {block tail : Bytes} {blockSize : ℕ} {it : DirentsIterator}
    (hsize : 12 ≤ blockSize) (h : DirentsIterator.new (block, tail) blockSize = .ok it) :
    SafeIteration it ↔ ∀ t, Reached direntStep it t → InOrder t := by
  obtain ⟨hblock, -, -, hcounted⟩ := resetCount_fresh h
  have hpos : 0 < it.blockSize := by
    rw [hblock]
    change 0 < blockSize
    omega
  constructor
  · exact fun hs t hr => inOrder_of_safe hs hr
  · intro ho
    refine ⟨dirents_end hpos, fun t hr hp => ?_, fun t item t' hr hi hn => ?_⟩
    · have hm := nextImpl_moves t
      rw [direntStep_panicked hp] at hm
      cases hm with
      | failed he => exact he rfl
      | underflow hi ha hf hb hlt =>
        have hle := (ho t hr hi _ _ ha hb (by simp [hf])).1
        exact absurd hlt (not_lt.mpr hle)
    · have hc : Counted t := hr.rule (fun _ _ hc hs => counted_step hc hs) hcounted
      have hm := nextImpl_moves t
      rw [hn] at hm
      cases hm with
      | middle hnext ha hf hb hle hend =>
        have hblock := (ho t hr hnext _ _ ha hb (by simp [hf])).2 hend
        refine inBlock_of_le hc hi ha (List.prefix_refl _) ?_
        rw [blockEnd]
        omega
      | last hlast ha hf hle hr =>
        exact inBlock_of_le hc hi ha (List.takeWhile_prefix _) (by omega)

/-- Two records, of a file and of a symlink, and their names `a` and `b`. -/
def twoRecords (first second : UInt16) : Bytes :=
  (DiskDirent.mk 40 first 1 0).asBytes ++ ((DiskDirent.mk 44 second 7 0).asBytes ++ [0x61, 0x62])

def openTwo (first second : UInt16) (blockSize : ℕ) : DirentsIterator :=
  ⟨twoRecords first second, some [], 0, 2, blockSize⟩

theorem two_records_safe :
    DirentsIterator.new (twoRecords 24 25, []) 4096 = .ok (openTwo 24 25 4096) ∧
      SafeIteration (openTwo 24 25 4096) := by
  have hopen : DirentsIterator.new (twoRecords 24 25, []) 4096 = .ok (openTwo 24 25 4096) := rfl
  refine ⟨hopen, (dirent_iteration_safe_iff (by decide) hopen).mpr fun t hr => ?_⟩
  let second : DirentsIterator := { openTwo 24 25 4096 with i := 1 }
  let finished : DirentsIterator := ⟨[], none, 0, 0, 4096⟩
  have h₀ : direntStep (openTwo 24 25 4096) = .again second := rfl
  have h₁ : direntStep second = .again finished := rfl
  have h₂ : direntStep finished = .done (.ok ()) := rfl
  have ht : t = openTwo 24 25 4096 ∨ t = second ∨ t = finished := by
    refine hr.rule (I := fun t => t = openTwo 24 25 4096 ∨ t = second ∨ t = finished) ?_ (Or.inl rfl)
    rintro s s' (rfl | rfl | rfl) hs
    · rw [h₀] at hs
      cases hs
      exact Or.inr (Or.inl rfl)
    · rw [h₁] at hs
      cases hs
      exact Or.inr (Or.inr rfl)
    · rw [h₂] at hs
      cases hs
  rcases ht with rfl | rfl | rfl
  · intro _ a b ha hb _
    cases ha
    cases hb
    decide
  · intro hi
    exact absurd hi (by decide)
  · intro hi
    exact absurd hi (by decide)

/-- Offsets in decreasing order make the length of a name negative, and a
name may lie in another block than its record. -/
theorem dirents_out_of_order :
    (DirentsIterator.new (twoRecords 24 0, []) 4096 = .ok (openTwo 24 0 4096) ∧
      (openTwo 24 0 4096).nextImpl = .error .panicked) ∧
    DirentsIterator.new (twoRecords 24 25, []) 12 = .ok (openTwo 24 25 12) ∧
      ∃ item it, (openTwo 24 25 12).nextImpl = .ok (item, it) ∧ ¬ InBlock (openTwo 24 25 12) item := by
  refine ⟨⟨rfl, rfl⟩, rfl, _, _, rfl, ?_⟩
  rintro ⟨a, ha, -, -, hname⟩
  cases ha
  revert hname
  decide

end Dirents

end ProgramExplorer.ErofsIterators
