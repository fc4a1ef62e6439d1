import ProgramExplorer.Downloads

/-!
# What is under a final name from the first moment

Four paths publish a file, and each must have written all of it before the
rename. A blob is flushed first. An image is padded to its size only after the
rename, and a table leaves what the buffered writer still holds to a destructor
that runs later still.
-/

set_option autoImplicit false

namespace ProgramExplorer.PublishOrder
open ByteStrings BlobKeys Digests FileSystem FileSession StateRules Publishing Downloads

abbrev Table := Bincode.Vec (Bincode.Vec UInt8 × Bincode.Vec UInt8)

def Table.entries (table : Table) : List (Bytes × Bytes) :=
  table.toList.map fun entry => (entry.1.toList, entry.2.toList)

inductive Publication where
  | blob (descriptor : Descriptor) (key : BlobKey) (received : Bool)
  | image (key : BlobKey) (writes : List (ℕ × Bytes)) (received : Bool)
  | refCache (table : Table)
  | manifestCache (table : Table)

variable (sha256 : Bytes → Bytes) (registry : Registry)

def Publication.run (s : Session Name) : Publication → Session Name
  | blob descriptor key received => stateAfter (retreiveBlob sha256 registry descriptor key received s)
  | image key writes received => stateAfter (makeErofsImage key writes received s)
  | refCache table => stateAfter (saveRefCache table.entries s)
  | manifestCache table => stateAfter (saveManifestCache table.entries s)

def Publication.final : Publication → Name
  | blob _ key _ => key.asPath
  | image key _ _ => key.asPath
  | refCache _ => ['r', 'e', 'f']
  | manifestCache _ => ['m', 'a', 'n', 'i', 'f', 'e', 's', 't']

def Publication.full : Publication → Bytes
  | blob descriptor _ _ => blobBody registry descriptor
  | image _ writes _ => paddedImage writes
  | refCache table => tableCodec.encode table
  | manifestCache table => tableCodec.encode table

def EndsLong (table : Table) : Prop := ∃ entry ∈ table.entries.getLast?, tableCapacity ≤ entry.2.length

def Publication.Safe : Publication → Prop
  | blob _ _ _ => True
  | image _ writes _ => imageBytes writes ≠ [] ∧ IoFile.pmemAlignSize ∣ (imageBytes writes).length
  | refCache table => EndsLong table
  | manifestCache table => EndsLong table

theorem roundUpTo_eq_self {n : ℕ} (hn : 0 < n) (x : ℕ) : x = IoFile.roundUpTo n x ↔ x ≠ 0 ∧ n ∣ x := by
  unfold IoFile.roundUpTo
  split_ifs with hx
  · simp [hx]
    omega
  · constructor
    · intro h
      exact ⟨hx, Dvd.intro_left _ h.symm⟩
    · rintro ⟨-, k, rfl⟩
      rw [show n * k + n - 1 = (n - 1) + n * k by omega, Nat.add_mul_div_left _ _ hn,
        Nat.div_eq_of_lt (by omega), Nat.zero_add, Nat.mul_comm]

theorem saveTable_whole_iff (name : Name) (table : Table) {s : Session Name} (hs : Quiet s) :
    Complete name (tableCodec.encode table) (stateAfter (saveTable name table.entries s)) ↔
      ((stateAfter (saveTable name table.entries s)).published = true → EndsLong table) := by
  rw [← tableBytes_eq_encode]
  exact saveTable_complete name table.entries hs

/-- From the rename on the file is whole, in every state that the disk passes
through, exactly for the publications that leave nothing for later. -/
theorem published_whole_iff (publication : Publication) (fs : Fs Name) (env : ℕ → Option ℕ) :
    Complete publication.final (publication.full registry)
        (publication.run sha256 registry (Session.start fs env)) ↔
      ((publication.run sha256 registry (Session.start fs env)).published = true → publication.Safe) := by
  have hs := quiet_start fs env
  cases publication with
  | blob descriptor key received =>
    have houtcome := retreiveBlob_outcome sha256 registry descriptor key received hs
    exact (complete_iff houtcome fun _ x hx => hx.1).trans (by simp [Publication.Safe])
  | image key writes received =>
    refine (makeErofsImage_complete key writes received hs).trans ?_
    rw [roundUpTo_eq_self (by decide), ne_eq, List.length_eq_zero_iff]
    rfl
  | refCache table => exact saveTable_whole_iff _ table hs
  | manifestCache table => exact saveTable_whole_iff _ table hs

def sampleTable : Table := ⟨[(⟨[97], by decide⟩, ⟨[98], by decide⟩)], by decide⟩

/-- Right after the rename the table is an empty file, and an image of one byte
is one byte long. -/
theorem published_too_early :
    (∃ disk, (true, disk) ∈ ((Publication.refCache sampleTable).run (fun _ => []) sampleRegistry
        (Session.start emptyDisk fun _ => none)).history ∧
      disk.read (Publication.refCache sampleTable).final = some [] ∧
      some [] ≠ some ((Publication.refCache sampleTable).full sampleRegistry)) ∧
    ∃ disk, (true, disk) ∈ ((Publication.image sampleKey [(0, [1])] true).run (fun _ => []) sampleRegistry
        (Session.start emptyDisk fun _ => none)).history ∧
      disk.read (Publication.image sampleKey [(0, [1])] true).final = some [1] ∧
      ¬ IoFile.pmemAlignSize ∣ 1 := by
  have htable : ((Publication.refCache sampleTable).run (fun _ => []) sampleRegistry
      (Session.start emptyDisk fun _ => none)).history.any (fun r =>
        r.1 && decide (r.2.read (Publication.refCache sampleTable).final = some [])) = true := by
    decide +kernel
  have himage : ((Publication.image sampleKey [(0, [1])] true).run (fun _ => []) sampleRegistry
      (Session.start emptyDisk fun _ => none)).history.reverse.any (fun r =>
        r.1 && decide (r.2.read (Publication.image sampleKey [(0, [1])] true).final = some [1])) = true := by
    decide +kernel
  obtain ⟨⟨flag, disk⟩, hmem, hread⟩ := List.any_eq_true.mp htable
  obtain ⟨⟨flag', disk'⟩, hmem', hread'⟩ := List.any_eq_true.mp himage
  rw [Bool.and_eq_true, decide_eq_true_eq] at hread hread'
  obtain ⟨rfl, hempty⟩ := hread
  obtain ⟨rfl, hone⟩ := hread'
  exact ⟨⟨disk, hmem, hempty, by decide⟩, disk', List.mem_reverse.mp hmem', hone, by decide⟩

end ProgramExplorer.PublishOrder
