import ProgramExplorer.BlobKeys
import ProgramExplorer.FileSession
import ProgramExplorer.IoFile

/-!
# Publishing a file

A file is written under a temporary name and renamed when it is done. The
guard unlinks the temporary name on every way out, except after `success`,
which disarms it before it renames. What the cache leaves on disk this way:
its two tables and the images that are built from layers.
-/

set_option autoImplicit false

namespace ProgramExplorer.Publishing
open ByteStrings ByteStore FileSystem FileSession StateRules BlobKeys

variable {ε α : Type}

abbrev Name := List Char

inductive Error where
  | errno
  | io
  | ser
  | build
  | oneshotTx
  deriving DecidableEq

section Guard

structure Target where
  final : Name
  tmp : Name

def keyTarget (key : BlobKey) : Target := ⟨key.asPath, key.withTmpSuffix.asPath⟩

def genericTarget (name : Name) : Target := ⟨name, name ++ tmpSuffix⟩

def openatCreateWriteWithGuard (e : ε) (target : Target) : Sys Name ε Unit := do
  let inode ← call e fun fs => some (fs.create target.tmp)
  modify fun s => { s with armed := true, inode := inode, pos := 0, buf := [], pending := [] }

def success (e : ε) (target : Target) : Sys Name ε Unit := do
  modify fun s => { s with armed := false }
  fileRename e target.tmp target.final

def dropGuard (target : Target) (s : Session Name) : Session Name :=
  if s.armed then dropName target.tmp { s with armed := false } else s

def bracket (destructor : Session Name → Session Name) (x : Sys Name ε α) : Sys Name ε α := fun s =>
  match x s with
  | .ok a t => .ok a (destructor t)
  | .error e t => .error e (destructor t)

end Guard

section Tables

def tableCapacity : ℕ := 8192

def lengthPieces (n : ℕ) : List Bytes :=
  if n ≤ 250 then [[UInt8.ofNat n]]
  else if n < 2 ^ 16 then [[251], LittleEndian.leBytes 2 n]
  else if n < 2 ^ 32 then [[252], LittleEndian.leBytes 4 n]
  else [[253], LittleEndian.leBytes 8 n]

/-- The writes of the encoder for a table: its length, and for each entry the
length and the bytes of the key and of the value. -/
def tablePieces (entries : List (Bytes × Bytes)) : List Bytes :=
  lengthPieces entries.length ++ entries.flatMap fun entry =>
    lengthPieces entry.1.length ++ [entry.1] ++ lengthPieces entry.2.length ++ [entry.2]

/-- The destructor of the buffered writer runs before that of the guard, and
after `success`. -/
def saveTable (name : Name) (entries : List (Bytes × Bytes)) : Sys Name Error Unit :=
  bracket (dropGuard (genericTarget name)) do
    openatCreateWriteWithGuard .errno (genericTarget name)
    bracket dropBuf do
      (tablePieces entries).forM (bufWriteAll tableCapacity .ser)
      success .errno (genericTarget name)

def saveRefCache (entries : List (Bytes × Bytes)) : Sys Name Error Unit :=
  saveTable ['r', 'e', 'f'] entries

def saveManifestCache (entries : List (Bytes × Bytes)) : Sys Name Error Unit :=
  saveTable ['m', 'a', 'n', 'i', 'f', 'e', 's', 't'] entries

end Tables

section Image

def roundUpFileToPmemSize : Sys Name Error Unit := do
  let cur ← fileLen .errno
  let newlen := IoFile.roundUpTo IoFile.pmemAlignSize cur
  if cur ≠ newlen then fileTruncate .errno newlen else pure ()

/-- The builder writes the image here and there in the file, and has nothing
left to write when it returns. `received` says whether anyone takes the file. -/
def makeErofsImage (key : BlobKey) (writes : List (ℕ × Bytes)) (received : Bool) : Sys Name Error ℕ :=
  bracket (dropGuard (keyTarget key)) do
    openatCreateWriteWithGuard .errno (keyTarget key)
    writes.forM fun write => do
      fileSeek write.1
      fileWriteAll .build write.2
    success .errno (keyTarget key)
    roundUpFileToPmemSize
    let size ← fileLen .io
    fileSeek 0
    require (received = true) .oneshotTx
    pure size

def imageBytes (writes : List (ℕ × Bytes)) : Bytes :=
  writes.foldl (fun data write => overwrite data write.1 write.2) []

end Image

section Outcomes

variable {e : ε} {target : Target} {first : Bytes} {P : Bytes → Prop}

/-- What a run leaves behind: nothing under the final name, or a file that is
seen with `P` from the moment it has that name. -/
def Outcome (final : Name) (first : Bytes) (P : Bytes → Prop) (s : Session Name) : Prop :=
  Quiet s ∨ Shown final first P s

theorem quiet_start (fs : Fs Name) (env : ℕ → Option ℕ) : Quiet (Session.start fs env) :=
  ⟨rfl, fun _ h => absurd h List.not_mem_nil⟩

theorem triple_open :
    Triple Quiet (openatCreateWriteWithGuard e target) (fun _ => Holding target.tmp [] [] [])
      (fun _ => Quiet) := by
  refine triple_bind (Q := fun inode s => Quiet s ∧ s.fs.entries target.tmp = some inode ∧
    s.fs.contents inode = []) (triple_call ?_ fun s hs => hs.record _) fun inode => ?_
  · intro s hs inode fs heq
    have hspec := create_spec s.fs target.tmp
    rw [Option.some.inj heq] at hspec
    exact ⟨hs.record _, hspec⟩
  · exact fun s hs => ⟨⟨hs.1, hs.2.1, hs.2.2⟩, rfl, rfl, rfl⟩

theorem triple_success {written buf : Bytes} {pos : ℕ} :
    Triple (fun s => Named target.tmp written s ∧ s.pos = pos ∧ s.buf = buf) (success e target)
      (fun _ s => Shown target.final written (· = written) s ∧ Open target.final written s ∧
        s.pos = pos ∧ s.buf = buf) (fun _ => Quiet) := by
  refine triple_bind (Q := fun _ s => Named target.tmp written s ∧ s.armed = false ∧ s.pos = pos ∧
    s.buf = buf) ?_ fun _ => triple_fileRename
  rintro s ⟨hs, hpos, hbuf⟩
  exact ⟨⟨hs.quiet, hs.entry, hs.contents⟩, rfl, hpos, hbuf⟩

theorem outcome_dropGuard {s : Session Name} (h : Outcome target.final first P s) :
    Outcome target.final first P (dropGuard target s) := by
  unfold dropGuard
  rcases h with hquiet | hshown
  · split_ifs
    · exact Or.inl (quiet_dropName (s := { s with armed := false }) hquiet _)
    · exact Or.inl hquiet
  · rw [if_neg (by simp [hshown.armed])]
    exact Or.inr hshown

theorem triple_bracket {R S F T G : Session Name → Prop} {destructor : Session Name → Session Name}
    {x : Sys Name ε α} (hx : Triple R x (fun _ => S) (fun _ => F))
    (hS : ∀ s, S s → T (destructor s)) (hF : ∀ s, F s → G (destructor s)) :
    Triple R (bracket destructor x) (fun _ => T) (fun _ => G) := by
  intro s hs
  have h := hx s hs
  unfold bracket
  cases hrun : x s with
  | ok a t =>
    rw [hrun] at h
    exact hS t h
  | error e t =>
    rw [hrun] at h
    exact hF t h

theorem stateAfter_of_triple {R S : Session Name → Prop} {x : Sys Name ε α} {s : Session Name}
    (h : Triple R x (fun _ => S) (fun _ => S)) (hs : R s) : S (stateAfter (x s)) := by
  have hx := h s hs
  cases hrun : x s <;> rw [hrun] at hx <;> exact hx

theorem outcome_guarded {x : Sys Name ε α} {s : Session Name}
    (hx : Triple Quiet x (fun _ => Outcome target.final first P) (fun _ => Outcome target.final first P))
    (hs : Quiet s) : Outcome target.final first P (stateAfter (bracket (dropGuard target) x s)) :=
  stateAfter_of_triple (triple_bracket hx (fun _ => outcome_dropGuard) fun _ => outcome_dropGuard) hs

end Outcomes

section TableOutcomes

/-- What the buffered writer has passed on after these pieces, and what it
still holds. -/
def tableState (entries : List (Bytes × Bytes)) : Bytes × Bytes :=
  (tablePieces entries).foldl (bufStep tableCapacity) ([], [])

def tableBytes (entries : List (Bytes × Bytes)) : Bytes := (tablePieces entries).flatten

/-- The serialised table: keys and values are strings or boxed bytes. -/
def tableCodec : Bincode.Codec (Bincode.Vec (Bincode.Vec UInt8 × Bincode.Vec UInt8)) :=
  ((Bincode.counted Bincode.raw).pair (Bincode.counted Bincode.raw)).vec

theorem flatten_lengthPieces {n : ℕ} (h : n < 2 ^ 64) :
    (lengthPieces n).flatten = Bincode.u64.encode (UInt64.ofNatLT n h) := by
  rw [Bincode.encode_u64, lengthPieces]
  split_ifs <;> simp

theorem encode_countedRaw (v : Bincode.Vec UInt8) :
    (Bincode.counted Bincode.raw).encode v = (lengthPieces v.toList.length).flatten ++ v.toList := by
  rw [flatten_lengthPieces v.short]
  rfl

theorem tableBytes_eq_encode (entries : Bincode.Vec (Bincode.Vec UInt8 × Bincode.Vec UInt8)) :
    tableBytes (entries.toList.map fun entry => (entry.1.toList, entry.2.toList)) =
      tableCodec.encode entries := by
  have hencode : tableCodec.encode entries =
      Bincode.u64.encode (UInt64.ofNatLT entries.toList.length entries.short) ++
        entries.toList.flatMap ((Bincode.counted Bincode.raw).pair (Bincode.counted Bincode.raw)).encode := by
    rw [← Bincode.encode_times _ ⟨entries.toList, rfl⟩]
    rfl
  rw [hencode, ← flatten_lengthPieces, tableBytes, tablePieces, List.flatten_append, List.length_map]
  congr 1
  induction entries.toList with
  | nil => rfl
  | cons entry rest ih =>
    rw [List.map_cons, List.flatMap_cons, List.flatten_append, ih, List.flatMap_cons]
    simp [encode_countedRaw]

theorem tableState_append (entries : List (Bytes × Bytes)) :
    (tableState entries).1 ++ (tableState entries).2 = tableBytes entries := by
  rw [tableState, foldl_bufStep_append, List.append_nil, List.nil_append, tableBytes]

/-- A length is a few bytes, so that some of it stays in the buffer. -/
theorem held_lengthPieces (n : ℕ) (state : Bytes × Bytes) :
    ((lengthPieces n).foldl (bufStep tableCapacity) state).2 ≠ [] := by
  have hlast : ∀ (state : Bytes × Bytes) (bs : Bytes), bs ≠ [] → bs.length < tableCapacity →
      (bufStep tableCapacity state bs).2 ≠ [] := fun state bs hne hlt hnil =>
    absurd ((bufStep_held (by decide) state (Or.inl hne)).mp hnil) (by omega)
  unfold lengthPieces
  split_ifs
  · exact hlast _ _ (by simp) (by simp [tableCapacity])
  all_goals
    exact hlast _ _ (by simp [LittleEndian.leBytes])
      (by simp [tableCapacity, LittleEndian.leBytes])

theorem held_table (entries : List (Bytes × Bytes)) :
    (tableState entries).2 = [] ↔ ∃ entry ∈ entries.getLast?, tableCapacity ≤ entry.2.length := by
  rcases List.eq_nil_or_concat entries with rfl | ⟨front, entry, rfl⟩
  · simpa [tableState, tablePieces] using held_lengthPieces 0 ([], [])
  · simp only [List.concat_eq_append, tableState, tablePieces, List.flatMap_append,
      List.flatMap_singleton, List.foldl_append, List.foldl_cons, List.foldl_nil]
    rw [bufStep_held (by decide) _ (Or.inr (held_lengthPieces _ _))]
    simp

theorem triple_tablePieces {tmp : Name} (entries : List (Bytes × Bytes)) :
    Triple (Holding tmp [] [] []) ((tablePieces entries).forM (bufWriteAll tableCapacity Error.ser))
      (fun _ => Holding tmp (tableState entries).1 [] (tableState entries).2) (fun _ => Quiet) :=
  triple_forM (I := fun state => Holding tmp state.1 [] state.2)
    (fun _ bs => triple_bufWriteAll tableCapacity bs) (tablePieces entries) ([], [])

/-- The table appears under its name without the bytes that the writer holds,
and some or all of them follow. -/
theorem saveTable_outcome (name : Name) (entries : List (Bytes × Bytes)) {s : Session Name} (hs : Quiet s) :
    Outcome name (tableState entries).1
      (fun x => ∃ t, t <+: (tableState entries).2 ∧ x = (tableState entries).1 ++ t)
      (stateAfter (saveTable name entries s)) := by
  refine outcome_guarded ?_ hs
  refine triple_bind (triple_mono_error triple_open fun _ _ h => Or.inl h) fun _ => ?_
  refine triple_bracket (S := fun s => Shown name (tableState entries).1 (· = (tableState entries).1) s ∧
      Open name (tableState entries).1 s ∧ s.pos = (tableState entries).1.length ∧
      s.buf = (tableState entries).2) (F := Quiet) ?_ ?_ fun _ h => Or.inl (quiet_dropBuf h)
  · refine triple_bind (triple_tablePieces entries) fun _ => ?_
    exact triple_conseq triple_success (fun _ h => ⟨h.toNamed, h.pos, h.buf⟩) fun _ _ h => h
  · rintro t ⟨hshown, hopen, hpos, hbuf⟩
    have hdrop := shown_dropBuf hshown hopen hpos
    rw [hbuf] at hdrop
    exact Or.inr hdrop

/-- A table is whole whenever it is seen exactly if its last value is too long
for the writer to hold. -/
theorem saveTable_complete (name : Name) (entries : List (Bytes × Bytes)) {s : Session Name} (hs : Quiet s) :
    Complete name (tableBytes entries) (stateAfter (saveTable name entries s)) ↔
      ((stateAfter (saveTable name entries s)).published = true →
        ∃ entry ∈ entries.getLast?, tableCapacity ≤ entry.2.length) := by
  have hheld : (tableState entries).1 = tableBytes entries ↔ (tableState entries).2 = [] := by
    rw [← tableState_append, List.self_eq_append_right]
  rw [complete_iff (saveTable_outcome name entries hs), hheld, held_table]
  rintro hfirst x ⟨t, ht, rfl⟩
  rw [hheld.mp hfirst] at ht
  rw [List.prefix_nil.mp ht, List.append_nil, hfirst]

end TableOutcomes

section ImageOutcomes

def paddedImage (writes : List (ℕ × Bytes)) : Bytes :=
  resized (imageBytes writes) (IoFile.roundUpTo IoFile.pmemAlignSize (imageBytes writes).length)

theorem length_paddedImage (writes : List (ℕ × Bytes)) :
    (paddedImage writes).length = IoFile.roundUpTo IoFile.pmemAlignSize (imageBytes writes).length := by
  have hle := IoFile.le_roundUpTo (n := IoFile.pmemAlignSize) (by decide) (imageBytes writes).length
  simp only [paddedImage, resized, List.length_append, List.length_take, List.length_replicate]
  omega

theorem imageBytes_eq_paddedImage (writes : List (ℕ × Bytes)) :
    imageBytes writes = paddedImage writes ↔
      (imageBytes writes).length = IoFile.roundUpTo IoFile.pmemAlignSize (imageBytes writes).length := by
  constructor
  · intro h
    rw [← length_paddedImage, ← h]
  · intro h
    rw [paddedImage, ← h, resized, List.take_length, Nat.sub_self, List.replicate_zero, List.append_nil]

theorem triple_writes {tmp : Name} (writes : List (ℕ × Bytes)) (contents : Bytes) :
    Triple (Named tmp contents)
      (writes.forM fun write => (do fileSeek write.1; fileWriteAll Error.build write.2 : Sys Name Error Unit))
      (fun _ => Named tmp (writes.foldl (fun data write => overwrite data write.1 write.2) contents))
      (fun _ => Quiet) :=
  triple_forM (I := fun contents => Named tmp contents)
    (fun _ write => triple_fileWriteAt write.1 write.2) writes contents

def EitherImage (writes : List (ℕ × Bytes)) (x : Bytes) : Prop :=
  x = imageBytes writes ∨ x = paddedImage writes

theorem triple_roundUp {final : Name} (writes : List (ℕ × Bytes)) :
    Triple (fun s => Shown final (imageBytes writes) (EitherImage writes) s ∧
        Open final (imageBytes writes) s) roundUpFileToPmemSize
      (fun _ s => Shown final (imageBytes writes) (EitherImage writes) s ∧ Open final (paddedImage writes) s)
      (fun _ => Shown final (imageBytes writes) (EitherImage writes)) := by
  refine triple_bind (triple_shown_fileLen (Or.inl rfl)) fun cur => ?_
  rintro s ⟨hs, rfl⟩
  simp only
  split_ifs with hlen
  · exact triple_shown_fileTruncate (Or.inl rfl) (Or.inr rfl) s hs
  · have heq := (imageBytes_eq_paddedImage writes).mpr (not_not.mp hlen)
    exact ⟨hs.1, heq ▸ hs.2⟩

/-- The image appears under its name as the builder wrote it, and is padded
after that. -/
theorem makeErofsImage_outcome (key : BlobKey) (writes : List (ℕ × Bytes)) (received : Bool)
    {s : Session Name} (hs : Quiet s) :
    Outcome key.asPath (imageBytes writes) (EitherImage writes)
      (stateAfter (makeErofsImage key writes received s)) := by
  refine outcome_guarded ?_ hs
  refine triple_bind (triple_mono_error triple_open fun _ _ h => Or.inl h) fun _ => ?_
  refine triple_bind (Q := fun _ => Named (keyTarget key).tmp (imageBytes writes))
    (triple_mono_error (triple_conseq (triple_writes writes []) (fun _ h => h.toNamed) fun _ _ h => h)
      fun _ _ h => Or.inl h) fun _ => ?_
  refine triple_bind (Q := fun _ s => Shown key.asPath (imageBytes writes) (EitherImage writes) s ∧
      Open key.asPath (imageBytes writes) s) ?_ fun _ => ?_
  · intro t ht
    refine triple_mono_error (triple_conseq triple_success (fun _ h => h) fun _ _ h => ?_)
      (fun _ _ h => Or.inl h) t ⟨ht, rfl, rfl⟩
    exact ⟨h.1.mono fun _ => Or.inl, h.2.1⟩
  refine triple_bind (triple_mono_error (triple_roundUp writes) fun _ _ => Or.inr) fun _ => ?_
  refine triple_bind (triple_mono_error (triple_shown_fileLen (Or.inr rfl)) fun _ _ => Or.inr) fun size => ?_
  refine triple_bind (Q := fun _ => Shown key.asPath (imageBytes writes) (EitherImage writes))
    (fun _ h => h.1.1.same rfl rfl rfl) fun _ => ?_
  refine triple_bind (triple_require _ _ fun _ _ => Or.inr) fun _ => ?_
  exact fun _ h => Or.inr h.1

/-- An image is whole whenever it is seen exactly if it needs no padding. -/
theorem makeErofsImage_complete (key : BlobKey) (writes : List (ℕ × Bytes)) (received : Bool)
    {s : Session Name} (hs : Quiet s) :
    Complete key.asPath (paddedImage writes) (stateAfter (makeErofsImage key writes received s)) ↔
      ((stateAfter (makeErofsImage key writes received s)).published = true →
        (imageBytes writes).length = IoFile.roundUpTo IoFile.pmemAlignSize (imageBytes writes).length) := by
  rw [complete_iff (makeErofsImage_outcome key writes received hs), imageBytes_eq_paddedImage]
  rintro hfirst x (rfl | rfl)
  · exact hfirst
  · rfl

end ImageOutcomes

end ProgramExplorer.Publishing
