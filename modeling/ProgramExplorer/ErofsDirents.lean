import ProgramExplorer.ErofsReadback

/-!
# Directory blocks

A directory is stored as blocks of records followed by the names they point
to. The blocks are filled in order, each as long as the next entry fits; all
but the last are padded with zeros. The reader finds the entries again, but
it ends the last name of a block at its first NUL.
-/

set_option autoImplicit false

namespace ProgramExplorer.ErofsDirents
open ByteStrings ByteStore LittleEndian StateRules FileTree ErofsTree ErofsDisk ErofsBuilder
open ErofsReader ErofsReadback

def need (names : List Bytes) : ℕ := (names.map fun name => 12 + name.length).sum

@[simp] theorem need_append (a b : List Bytes) : need (a ++ b) = need a + need b := by
  simp [need]

@[simp] theorem need_cons (name : Bytes) (names : List Bytes) :
    need (name :: names) = 12 + name.length + need names := by
  simp [need]

@[simp] theorem need_nil : need [] = 0 := rfl

theorem need_eq (names : List Bytes) : need names = 12 * names.length + names.flatten.length := by
  induction names with
  | nil => rfl
  | cons name names ih =>
    simp only [need_cons, List.length_cons, List.flatten_cons, List.length_append, ih]
    omega

def Block (names : List Bytes) : Prop := names ≠ [] ∧ need names ≤ blockSize

/-- The names are split into blocks with these counts and this total size. -/
def Packed (names : List Bytes) (counts : List ℕ) (total : ℕ) : Prop :=
  ∃ front last, names = (front ++ [last]).flatten ∧ counts = (front ++ [last]).map List.length ∧
    total = blockSize * front.length + need last ∧ ∀ block ∈ front ++ [last], Block block

structure Filling (names : List Bytes) (p : Packing) (front : List (List Bytes)) (last : List Bytes) :
    Prop where
  names_eq : names = front.flatten ++ last
  counts : p.counts = front.map List.length
  len : p.len = need last
  count : p.count = last.length
  closed : ∀ block ∈ front, Block block
  fits : need last ≤ blockSize

theorem packName_filling {names : List Bytes} {p : Packing} {front : List (List Bytes)}
    {last : List Bytes} (h : Filling names p front last) {name : Bytes}
    (hn : 12 + name.length ≤ blockSize) :
    ∃ front' last', last' ≠ [] ∧ Filling (names ++ [name]) (packName p name) front' last' := by
  have hlen := h.len
  have hfits := h.fits
  unfold packName
  by_cases hc : p.len + (12 + name.length) > blockSize ∨ p.len + 12 > 65535
  · rw [if_pos hc]
    have hover : need last + (12 + name.length) > blockSize := by
      simp only [blockSize] at *
      omega
    have hne : last ≠ [] := by
      rintro rfl
      simp only [need_nil] at hover
      omega
    refine ⟨front ++ [last], [name], by simp, ?_, ?_, by simp, by simp, ?_, by simpa using hn⟩
    · simp [h.names_eq]
    · simp [h.counts, h.count]
    · intro block hb
      rcases List.mem_append.mp hb with hb | hb
      · exact h.closed block hb
      · rw [List.mem_singleton.mp hb]
        exact ⟨hne, h.fits⟩
  · rw [if_neg hc]
    refine ⟨front, last ++ [name], by simp, ?_, h.counts, ?_, ?_, h.closed, ?_⟩
    · simp [h.names_eq]
    · simp [hlen]
    · simp [h.count]
    · simp only [need_append, need_cons, need_nil]
      omega

theorem pack_filling (names : List Bytes) (hn : ∀ name ∈ names, 12 + name.length ≤ blockSize) :
    ∃ front last, (names ≠ [] → last ≠ []) ∧
      Filling names (names.foldl packName ⟨[], 0, 0⟩) front last := by
  induction names using List.reverseRecOn with
  | nil => exact ⟨[], [], by simp, rfl, rfl, rfl, rfl, by simp, by simp⟩
  | append_singleton names name ih =>
    obtain ⟨front, last, -, hf⟩ := ih fun n hm => hn n (by simp [hm])
    obtain ⟨front', last', hne, hf'⟩ := packName_filling hf (hn name (by simp))
    refine ⟨front', last', fun _ => hne, ?_⟩
    rwa [List.foldl_append]

theorem packed_of_filling {names : List Bytes} {p : Packing} {front : List (List Bytes)}
    {last : List Bytes} (h : Filling names p front last) (hne : last ≠ []) :
    Packed names p.blocks p.size := by
  have hcount : p.count ≠ 0 := by
    rw [h.count]
    simpa using hne
  refine ⟨front, last, by simp [h.names_eq], ?_, ?_, ?_⟩
  · rw [Packing.blocks, if_pos hcount, h.counts, h.count]
    simp
  · rw [Packing.size, if_pos hcount, h.counts, h.len, List.length_map]
  · intro block hb
    rcases List.mem_append.mp hb with hb | hb
    · exact h.closed block hb
    · rw [List.mem_singleton.mp hb]
      exact ⟨hne, h.fits⟩

/-- How many entries each block of a directory with these names takes. -/
def direntCounts (names : List Bytes) : List ℕ := (names.foldl packName ⟨[], 0, 0⟩).blocks

theorem prepareDirentData_ok {info info' : DirInfo} {names : List Bytes} {cur : ℕ}
    (h : prepareDirentData info names cur = .ok info') (h0 : info.nDirentsPerBlock = [])
    (hn : ∀ name ∈ names, 12 + name.length ≤ blockSize) (hne : names ≠ []) :
    info'.startBlock.toNat = cur ∧ Packed names info'.nDirentsPerBlock info'.totalSize ∧
      info'.metadata = info.metadata ∧ info'.diskId = info.diskId ∧
      info'.nDirentsPerBlock = direntCounts names := by
  obtain ⟨start, hs, h⟩ := except_bind_eq_ok.mp h
  simp only [h0] at h
  split_ifs at h with hsum
  cases h
  obtain ⟨front, last, hl, hf⟩ := pack_filling names hn
  exact ⟨ErofsPlacement.toU32_ok hs, packed_of_filling hf (hl hne), rfl, rfl, rfl⟩

abbrev Child := Bytes × Dirent

section Encode

variable (self parent : Option UInt32)

def childId (c : Child) : UInt32 := (childDiskId self parent c.2).getD 0

def record (offset : ℕ) (c : Child) : DiskDirent :=
  ⟨(childId self parent c).toUInt64, UInt16.ofNat offset, (direntFileType c.2).toU8, 0⟩

def records : ℕ → List Child → List DiskDirent
  | _, [] => []
  | offset, c :: cs => record self parent offset c :: records (offset + c.1.length) cs

def recordBytes (offset : ℕ) (cs : List Child) : Bytes :=
  (records self parent offset cs).flatMap DiskDirent.asBytes

def namesOf (cs : List Child) : List Bytes := cs.map (·.1)

def blockBytes (cs : List Child) : Bytes :=
  recordBytes self parent (12 * cs.length) cs ++ (namesOf cs).flatten

def dirData : List (List Child) → Bytes
  | [] => []
  | [cs] => blockBytes self parent cs
  | cs :: blocks =>
    blockBytes self parent cs ++
      (List.replicate (blockSize - (blockBytes self parent cs).length) 0 ++ dirData blocks)

theorem recordBytes_length (offset : ℕ) (cs : List Child) :
    (recordBytes self parent offset cs).length = 12 * cs.length := by
  induction cs generalizing offset with
  | nil => rfl
  | cons c cs ih =>
    have := ih (offset + c.1.length)
    simp only [recordBytes, records, List.flatMap_cons, List.length_append, List.length_cons,
      DiskDirent.asBytes_length] at this ⊢
    omega

theorem recordBytes_append (offset : ℕ) (a b : List Child) :
    recordBytes self parent offset (a ++ b) =
      recordBytes self parent offset a ++
        recordBytes self parent (offset + (namesOf a).flatten.length) b := by
  induction a generalizing offset with
  | nil => simp [recordBytes, records, namesOf]
  | cons c a ih =>
    have := ih (offset + c.1.length)
    simp only [recordBytes, records, namesOf, List.cons_append, List.flatMap_cons, List.map_cons,
      List.flatten_cons, List.length_append, List.append_assoc, add_assoc] at this ⊢
    rw [this]

theorem blockBytes_length (cs : List Child) :
    (blockBytes self parent cs).length = need (namesOf cs) := by
  rw [blockBytes, List.length_append, recordBytes_length, need_eq]
  simp [namesOf]

theorem encodeDirents_ok {offset : ℕ} {cs : List Child} {bs : Bytes}
    (h : encodeDirents self parent offset cs = .ok bs) :
    bs = recordBytes self parent offset cs ∧
      ∀ c ∈ cs, childDiskId self parent c.2 = some (childId self parent c) := by
  induction cs generalizing offset bs with
  | nil =>
    cases h
    exact ⟨rfl, by simp⟩
  | cons c cs ih =>
    obtain ⟨name, child⟩ := c
    obtain ⟨id, hid, h⟩ := except_bind_eq_ok.mp h
    simp only at h
    split_ifs at h
    swap
    · cases h
    obtain ⟨off, hoff, h⟩ := except_bind_eq_ok.mp h
    obtain ⟨rest, hrest, h⟩ := except_bind_eq_ok.mp h
    obtain ⟨rfl, hall⟩ := ih hrest
    have hid := okOr_eq_ok.mp hid
    have hchild : childId self parent (name, child) = id := by simp [childId, hid]
    cases hoff
    cases h
    refine ⟨?_, ?_⟩
    · simp only [recordBytes, records, List.flatMap_cons, record, hchild]
    · intro c hc
      rcases List.mem_cons.mp hc with rfl | hc
      · rw [hchild]
        exact hid
      · exact hall c hc

end Encode

section Decode

variable {self parent : Option UInt32}

def itemOf (self parent : Option UInt32) (c : Child) : DirentItem :=
  ⟨(childId self parent c).toUInt64, direntFileType c.2, c.1⟩

/-- The data starts with this block, and the block ends after `zeros` more bytes. -/
structure AtBlock (own parent : Option UInt32) (cs : List Child) (zeros : ℕ) (rest : Bytes)
    (data : Bytes) : Prop where
  data_eq : data = blockBytes own parent cs ++ (List.replicate zeros 0 ++ rest)
  block : Block (namesOf cs)
  ends : min data.length blockSize = (blockBytes own parent cs).length + zeros

theorem record_split {cs : List Child} {zeros : ℕ} {rest data : Bytes}
    (h : AtBlock self parent cs zeros rest data) {a b : List Child} {c : Child}
    (hcs : cs = a ++ c :: b) :
    ∃ post, data = recordBytes self parent (12 * cs.length) a ++
      ((record self parent (12 * cs.length + (namesOf a).flatten.length) c).asBytes ++ post) := by
  refine ⟨recordBytes self parent (12 * cs.length + (namesOf a).flatten.length + c.1.length) b ++
    ((namesOf cs).flatten ++ (List.replicate zeros 0 ++ rest)), ?_⟩
  have hsplit : recordBytes self parent (12 * cs.length) cs =
      recordBytes self parent (12 * cs.length) a ++ recordBytes self parent
        (12 * cs.length + (namesOf a).flatten.length) (c :: b) := by
    rw [← recordBytes_append, ← hcs]
  rw [h.data_eq, blockBytes, hsplit]
  simp only [recordBytes, records, List.flatMap_cons, List.append_assoc]

theorem get_record {cs : List Child} {zeros : ℕ} {rest data : Bytes}
    (h : AtBlock self parent cs zeros rest data) {a b : List Child} {c : Child}
    (hcs : cs = a ++ c :: b) (it : DirentsIterator) (hit : it.data = data) :
    it.get a.length =
      .ok (record self parent (12 * cs.length + (namesOf a).flatten.length) c) := by
  obtain ⟨post, hpost⟩ := record_split h hcs
  have hat := hasAt_middle (recordBytes self parent (12 * cs.length) a)
    (record self parent (12 * cs.length + (namesOf a).flatten.length) c).asBytes post
  rw [← hpost, recordBytes_length] at hat
  obtain ⟨tail, htail⟩ := hat.from? (List.ne_nil_of_length_pos (by
    rw [DiskDirent.asBytes_length]
    omega))
  rw [DirentsIterator.get, hit, Nat.mul_comm, htail]
  simp only [reader_okOr_some, bind, Except.bind, DiskDirent.fromPrefix_asBytes]
  rfl

theorem record_fileType (offset : ℕ) (c : Child) :
    ErofsReader.okOr (DirentFileType.tryFrom (record self parent offset c).fileType)
      ErofsReader.Error.badFileType = .ok (direntFileType c.2) := by
  rw [record, DirentFileType.tryFrom_toU8, reader_okOr_some]

theorem nameOffset_toNat {cs a b : List Child} {c : Child} (hb : Block (namesOf cs))
    (hcs : cs = a ++ c :: b) :
    (record self parent (12 * cs.length + (namesOf a).flatten.length) c).nameOffset.toNat =
      12 * cs.length + (namesOf a).flatten.length := by
  have hneed := hb.2
  rw [need_eq] at hneed
  have hlen : (namesOf a).flatten.length ≤ (namesOf cs).flatten.length := by
    rw [hcs, namesOf, namesOf, List.map_append, List.flatten_append, List.length_append]
    omega
  have hcount : (namesOf cs).length = cs.length := by simp [namesOf]
  simp only [record, UInt16.toNat_ofNat', blockSize] at *
  omega

theorem name_hasAt {cs : List Child} {zeros : ℕ} {rest data : Bytes}
    (h : AtBlock self parent cs zeros rest data) {a b : List Child} {c : Child}
    (hcs : cs = a ++ c :: b) :
    HasAt data (12 * cs.length + (namesOf a).flatten.length)
      (c.1 ++ ((namesOf b).flatten ++ List.replicate zeros 0)) := by
  have hat := hasAt_middle (recordBytes self parent (12 * cs.length) cs ++ (namesOf a).flatten)
    (c.1 ++ ((namesOf b).flatten ++ List.replicate zeros 0)) rest
  rw [List.length_append, recordBytes_length] at hat
  have hdata : data = recordBytes self parent (12 * cs.length) cs ++ (namesOf a).flatten ++
      (c.1 ++ ((namesOf b).flatten ++ List.replicate zeros 0) ++ rest) := by
    have hnames : (namesOf cs).flatten = (namesOf a).flatten ++ (c.1 ++ (namesOf b).flatten) := by
      rw [hcs]
      simp [namesOf]
    rw [h.data_eq, blockBytes, hnames]
    simp only [List.append_assoc]
  rw [hdata]
  exact hat

theorem nextImpl_middle {cs : List Child} {zeros : ℕ} {rest data : Bytes}
    (h : AtBlock self parent cs zeros rest data) {a b : List Child} {c c' : Child}
    (hcs : cs = a ++ c :: c' :: b) (remaining : Option Bytes) :
    DirentsIterator.nextImpl ⟨data, remaining, a.length, cs.length, blockSize⟩ =
      .ok (itemOf self parent c, ⟨data, remaining, a.length + 1, cs.length, blockSize⟩) := by
  have hcs' : cs = (a ++ [c]) ++ c' :: b := by simp [hcs]
  have hget := get_record h hcs ⟨data, remaining, a.length, cs.length, blockSize⟩ rfl
  have hget' := get_record h hcs' ⟨data, remaining, a.length, cs.length, blockSize⟩ rfl
  have hoff := @nameOffset_toNat self parent _ _ _ _ h.block hcs
  have hoff' := @nameOffset_toNat self parent _ _ _ _ h.block hcs'
  have hlt : a.length + 1 < cs.length := by
    rw [hcs]
    simp
  have hnext : 12 * cs.length + (namesOf (a ++ [c])).flatten.length =
      12 * cs.length + (namesOf a).flatten.length + c.1.length := by
    simp [namesOf]
    omega
  have hat := ((hasAt_append _ _ _ _).mp (name_hasAt h hcs)).1
  have hle : 12 * cs.length + (namesOf a).flatten.length + c.1.length ≤ data.length := by
    have := congrArg List.length h.data_eq
    have hb := blockBytes_length self parent cs
    rw [need_eq] at hb
    have hn : (namesOf cs).flatten.length =
        (namesOf a).flatten.length + (c.1.length + (namesOf (c' :: b)).flatten.length) := by
      rw [hcs]
      simp [namesOf]
    have hcount : (namesOf cs).length = cs.length := by simp [namesOf]
    rw [List.length_append] at this
    omega
  rw [List.length_append, List.length_singleton, hnext] at hget'
  rw [hnext] at hoff'
  have hord : ¬ 12 * cs.length + (namesOf a).flatten.length + c.1.length <
      12 * cs.length + (namesOf a).flatten.length := by omega
  simp only [DirentsIterator.nextImpl, hget, hget', bind, Except.bind, hlt, if_true, hoff, hoff',
    hat.slice? hle, reader_okOr_some, record_fileType, hord, if_false]
  rfl

def cut (name : Bytes) : Bytes := name.takeWhile (fun b => b ≠ 0)

theorem cut_padded (name : Bytes) (zeros : ℕ) :
    (name ++ List.replicate zeros 0).takeWhile (fun b => b ≠ 0) = cut name := by
  induction name with
  | nil => cases zeros <;> simp [cut, List.replicate_succ]
  | cons b name ih =>
    by_cases hb : b = 0
    · simp [cut, hb]
    · simpa [cut, hb] using ih

theorem cut_eq_self_iff {name : Bytes} : cut name = name ↔ (0 : UInt8) ∉ name := by
  rw [cut, List.takeWhile_eq_self_iff]
  simp only [ne_eq, decide_not, Bool.not_eq_eq_eq_not, Bool.not_true, decide_eq_false_iff_not]
  exact ⟨fun h h0 => h 0 h0 rfl, fun h b hb h0 => h (h0 ▸ hb)⟩

/-- An entry as it is read, with whether it is the last one of its block. -/
def itemAs (self parent : Option UInt32) (c : Child × Bool) : DirentItem :=
  { itemOf self parent c.1 with name := if c.2 then cut c.1.1 else c.1.1 }

def marked : List Child → List (Child × Bool)
  | [] => []
  | [c] => [(c, true)]
  | c :: c' :: cs => (c, false) :: marked (c' :: cs)

theorem marked_fst (cs : List Child) : (marked cs).map (·.1) = cs := by
  fun_induction marked cs with
  | case1 => rfl
  | case2 => rfl
  | case3 c c' cs ih => rw [List.map_cons, ih]

theorem mem_marked_last {cs : List Child} {c : Child} :
    (c, true) ∈ marked cs ↔ cs.getLast? = some c := by
  fun_induction marked cs with
  | case1 => simp
  | case2 => simp [eq_comm]
  | case3 c' c'' cs ih => simp [ih]

theorem nextImpl_last {cs : List Child} {zeros : ℕ} {rest data : Bytes}
    (h : AtBlock self parent cs zeros rest data) {a : List Child} {c : Child}
    (hcs : cs = a ++ [c]) (remaining : Option Bytes) {it' : DirentsIterator}
    (hreset : DirentsIterator.resetCount ⟨rest, remaining, a.length, cs.length, blockSize⟩ =
      .ok it') :
    DirentsIterator.nextImpl ⟨data, remaining, a.length, cs.length, blockSize⟩ =
      .ok (itemAs self parent (c, true), it') := by
  have hget := get_record h hcs ⟨data, remaining, a.length, cs.length, blockSize⟩ rfl
  have hoff := @nameOffset_toNat self parent _ _ _ _ h.block hcs
  have hlt : ¬ a.length + 1 < cs.length := by
    rw [hcs]
    simp
  have hat := name_hasAt h hcs
  have hlen := blockBytes_length self parent cs
  rw [need_eq] at hlen
  have hnames : (namesOf cs).flatten.length = (namesOf a).flatten.length + c.1.length := by
    rw [hcs]
    simp [namesOf]
  have hcount : (namesOf cs).length = cs.length := by simp [namesOf]
  have hends := h.ends
  have hnil : (namesOf ([] : List Child)).flatten = [] := rfl
  rw [hnil, List.nil_append] at hat
  have hend : 12 * cs.length + (namesOf a).flatten.length +
      (c.1 ++ List.replicate zeros (0 : UInt8)).length = min data.length blockSize := by
    rw [List.length_append, List.length_replicate]
    omega
  have hslice := hat.slice? (by omega)
  rw [hend] at hslice
  have hdrop : data.drop (min data.length blockSize) = rest := by
    rw [h.ends, h.data_eq, ← List.append_assoc, List.drop_left']
    simp
  simp only [DirentsIterator.nextImpl, hget, bind, Except.bind, hlt, if_false, hoff, hslice,
    reader_okOr_some, hdrop, hreset, record_fileType, cut_padded]
  rfl

theorem items_block {cs : List Child} {zeros : ℕ} {rest data : Bytes}
    (h : AtBlock self parent cs zeros rest data)
    {remaining : Option Bytes} {it' : DirentsIterator} {rs : List DirentItem}
    (hreset : ∀ i n, DirentsIterator.resetCount ⟨rest, remaining, i, n, blockSize⟩ = .ok it')
    (hrest : ∀ fuel, rs.length < fuel → it'.items fuel = .ok rs) (b : List Child) :
    b ≠ [] → ∀ a, cs = a ++ b → ∀ fuel, b.length + rs.length < fuel →
      DirentsIterator.items fuel ⟨data, remaining, a.length, cs.length, blockSize⟩ =
        .ok ((marked b).map (itemAs self parent) ++ rs) := by
  induction b with
  | nil => exact fun hne => absurd rfl hne
  | cons c b ih =>
    intro _ a hcs fuel hfuel
    obtain ⟨fuel, rfl⟩ : ∃ k, fuel = k + 1 := ⟨fuel - 1, by omega⟩
    rw [List.length_cons] at hfuel
    have hlt : a.length < cs.length := by
      rw [hcs]
      simp
    rw [DirentsIterator.items, if_pos hlt]
    cases b with
    | nil =>
      rw [nextImpl_last h hcs remaining (hreset _ _)]
      simp only [bind, Except.bind, hrest fuel (by omega)]
      rfl
    | cons c' b =>
      have hnext := ih (by simp) (a ++ [c]) (by simp [hcs]) fuel (by omega)
      rw [List.length_append, List.length_singleton] at hnext
      rw [nextImpl_middle h hcs remaining]
      simp only [bind, Except.bind, hnext]
      rfl

theorem countRecords_eq {cs : List Child} {zeros : ℕ} {rest data : Bytes}
    (h : AtBlock self parent cs zeros rest data) (remaining : Option Bytes) (i n : ℕ) :
    DirentsIterator.countRecords ⟨data, remaining, i, n, blockSize⟩ =
      .ok ⟨data, remaining, 0, cs.length, blockSize⟩ := by
  obtain ⟨c, b, hcs⟩ : ∃ c b, cs = [] ++ c :: b := by
    cases cs with
    | nil => exact absurd rfl h.block.1
    | cons c b => exact ⟨c, b, rfl⟩
  obtain ⟨post, hpost⟩ := record_split h hcs
  have hoff := @nameOffset_toNat self parent _ _ _ _ h.block hcs
  rw [hpost] at *
  have hrec : recordBytes self parent (12 * cs.length) [] = [] := rfl
  have hnil : (namesOf ([] : List Child)).flatten.length = 0 := rfl
  rw [hnil, Nat.add_zero] at hoff
  simp only [DirentsIterator.countRecords, hrec, List.nil_append, hnil, Nat.add_zero,
    DiskDirent.fromPrefix_asBytes, reader_okOr_some, bind, Except.bind, hoff, Nat.mul_mod_right,
    ne_eq, not_true_eq_false, if_false]
  rw [Nat.mul_div_cancel_left _ (by omega)]
  rfl

theorem atBlock_dirData {cs : List Child} (hb : Block (namesOf cs)) (blocks : List (List Child)) :
    ∃ zeros, AtBlock self parent cs zeros (dirData self parent blocks)
      (dirData self parent (cs :: blocks)) := by
  have hlen := blockBytes_length self parent cs
  have hle := hb.2
  cases blocks with
  | nil =>
    refine ⟨0, by simp [dirData], hb, ?_⟩
    rw [dirData]
    omega
  | cons cs' blocks =>
    refine ⟨blockSize - (blockBytes self parent cs).length, rfl, hb, ?_⟩
    rw [dirData, List.length_append, List.length_append, List.length_replicate]
    · omega
    · simp

def entriesRead (self parent : Option UInt32) (blocks : List (List Child)) : List DirentItem :=
  (blocks.flatMap marked).map (itemAs self parent)

theorem entriesRead_cons (cs : List Child) (blocks : List (List Child)) :
    entriesRead self parent (cs :: blocks) =
      (marked cs).map (itemAs self parent) ++ entriesRead self parent blocks := by
  rw [entriesRead, List.flatMap_cons, List.map_append]
  rfl

theorem flatMap_marked_fst (blocks : List (List Child)) :
    (blocks.flatMap marked).map (·.1) = blocks.flatten := by
  induction blocks with
  | nil => rfl
  | cons cs blocks ih => rw [List.flatMap_cons, List.map_append, marked_fst, ih, List.flatten_cons]

theorem length_entriesRead (blocks : List (List Child)) :
    (entriesRead self parent blocks).length = blocks.flatten.length := by
  rw [entriesRead, List.length_map, ← flatMap_marked_fst, List.length_map]

/-- Names without NUL are read as they are. -/
theorem entriesRead_of_noNul {blocks : List (List Child)}
    (hnul : ∀ c ∈ blocks.flatten, (0 : UInt8) ∉ c.1) :
    entriesRead self parent blocks = blocks.flatten.map (itemOf self parent) := by
  rw [← flatMap_marked_fst, List.map_map, entriesRead]
  refine List.map_congr_left fun c hc => ?_
  have hname : cut c.1.1 = c.1.1 := cut_eq_self_iff.mpr
    (hnul c.1 (by rw [← flatMap_marked_fst]; exact List.mem_map_of_mem hc))
  simp [itemAs, hname, itemOf]

/-- Iterating over the data of a directory gives its entries in order. -/
theorem items_dirData (blocks : List (List Child)) (hb : ∀ cs ∈ blocks, Block (namesOf cs))
    {remaining : Option Bytes} (hr : remaining.getD [] = []) :
    ∃ it, (∀ i n, DirentsIterator.resetCount
        ⟨dirData self parent blocks, remaining, i, n, blockSize⟩ = .ok it) ∧
      ∀ fuel, blocks.flatten.length < fuel →
        it.items fuel = .ok (entriesRead self parent blocks) := by
  induction blocks with
  | nil =>
    refine ⟨⟨[], none, 0, 0, blockSize⟩, ?_, ?_⟩
    · intro i n
      simp only [DirentsIterator.resetCount, dirData, if_true, hr]
      rfl
    · intro fuel hfuel
      obtain ⟨fuel, rfl⟩ : ∃ k, fuel = k + 1 := ⟨fuel - 1, by omega⟩
      rfl
  | cons cs blocks ih =>
    obtain ⟨it', hreset, hitems⟩ := ih fun cs' hm => hb cs' (by simp [hm])
    obtain ⟨zeros, hat⟩ := @atBlock_dirData self parent _ (hb cs (by simp)) blocks
    refine ⟨⟨dirData self parent (cs :: blocks), remaining, 0, cs.length, blockSize⟩, ?_, ?_⟩
    · intro i n
      have hne : dirData self parent (cs :: blocks) ≠ [] := by
        intro h0
        have hends := hat.ends
        have hlen := blockBytes_length self parent cs
        rw [need_eq] at hlen
        have hpos : 0 < (namesOf cs).length := List.length_pos_of_ne_nil hat.block.1
        rw [h0] at hends
        simp only [List.length_nil] at hends
        omega
      rw [DirentsIterator.resetCount, if_neg hne]
      exact countRecords_eq hat remaining i n
    · intro fuel hfuel
      rw [List.flatten_cons, List.length_append] at hfuel
      have hne : cs ≠ [] := by
        rintro rfl
        exact hat.block.1 rfl
      have hrest : ∀ k, (entriesRead self parent blocks).length < k →
          it'.items k = .ok (entriesRead self parent blocks) :=
        fun k hk => hitems k (by rwa [length_entriesRead] at hk)
      rw [entriesRead_cons]
      exact items_block hat hreset hrest cs hne [] rfl fuel (by rwa [length_entriesRead])

end Decode

end ProgramExplorer.ErofsDirents
