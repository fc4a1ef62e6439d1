import ProgramExplorer.ErofsBuilder

/-!
# Where the builder stands while entries are added

Between two calls the writer stands at the block that the builder counts as
the next free one. The count follows the declared length of a file and the
writer follows its bytes, so this is kept as long as the reader of a file
yields the bytes that go into blocks. The limit on the size of the image is
compared with each length alone, since no call adds to the running total.
-/

set_option autoImplicit false

namespace ProgramExplorer.ErofsCursor
open ByteStrings ByteStore StateRules ErofsTree ErofsBuilder

inductive Call where
  | addFile (path : Bytes) (metadata : Meta) (len : ℕ) (contents : Reader)
  | addSymlink (path link : Bytes) (metadata : Meta)
  | upsertDir (path : Bytes) (metadata : Meta)
  | addLink (path target : Bytes) (metadata : Meta)

def Call.run : Call → EStateM Error Builder Unit
  | .addFile path metadata len contents => ErofsBuilder.addFile path metadata len contents
  | .addSymlink path link metadata => ErofsBuilder.addSymlink path link metadata
  | .upsertDir path metadata => ErofsBuilder.upsertDir path metadata
  | .addLink path target metadata => ErofsBuilder.addLink path target metadata

/-- The builder after a sequence of calls, whether they succeed or fail. -/
def after (b : Builder) : List Call → Builder
  | [] => b
  | c :: cs => after (stateAfter (c.run b)) cs

theorem sizeTailLen_sum (len : ℕ) : (sizeTailLen len).2.1 + (sizeTailLen len).2.2 = len := by
  unfold sizeTailLen blockSize
  split_ifs
  · simp
  · simp
    omega

theorem sizeTailLen_padded (len : ℕ) :
    (sizeTailLen len).2.1 + padding (sizeTailLen len).2.1 blockSize =
      (sizeTailLen len).1 * blockSize := by
  unfold sizeTailLen padding blockSize
  split_ifs <;> simp_all
  omega

theorem sizeTailLen_zero {len : ℕ} (h : (sizeTailLen len).2.1 = 0) : (sizeTailLen len).1 = 0 := by
  have := sizeTailLen_padded len
  rw [h] at this
  simpa [padding, blockSize] using this

/-- The builder after `bs` was written and padded to `nBlocks` blocks. -/
def stored (nBlocks : ℕ) (bs : Bytes) (b : Builder) : Builder :=
  { b with
    writer := b.writer.writeAll (bs ++ List.replicate (padding bs.length blockSize) 0)
    curDataBlock := b.curDataBlock + nBlocks
    stats := { b.stats with
      blockEndPadding := b.stats.blockEndPadding + padding bs.length blockSize } }

theorem stored_nil (b : Builder) : stored 0 [] b = b := by
  simp [stored, padding, Writer.writeAll, overwrite]

theorem copyBlocks_eq (b : Builder) (nBlocks blockLen : ℕ) (contents : Reader)
    (h0 : blockLen = 0 → nBlocks = 0) (h : blockLen ≤ contents.data.length) :
    copyBlocks nBlocks blockLen contents b =
      .ok { contents with data := contents.data.drop blockLen }
        (stored nBlocks (contents.data.take blockLen) b) := by
  unfold copyBlocks
  by_cases hb : blockLen = 0
  · subst hb
    rw [h0 rfl]
    simp [stored_nil]
    rfl
  · have hlen : (contents.data.take blockLen).length = blockLen := by simp [h]
    rw [if_pos (by omega)]
    simp only [bind, EStateM.bind, ioCopy, write, require, h, true_or, if_true, advance, modify_run,
      zeroFillBlock, zeroFill, pure, EStateM.pure, stored, hlen, Writer.writeAll_append]

theorem writeBlocks_eq (b : Builder) (nBlocks blockLen : ℕ) (data : Bytes)
    (h0 : blockLen = 0 → nBlocks = 0) (h : blockLen ≤ data.length) :
    writeBlocks nBlocks blockLen data b = .ok () (stored nBlocks (data.take blockLen) b) := by
  unfold writeBlocks
  by_cases hb : blockLen = 0
  · subst hb
    rw [h0 rfl]
    simp [stored_nil]
    rfl
  · have hlen : (data.take blockLen).length = blockLen := by simp [h]
    rw [if_pos (by omega)]
    simp only [bind, EStateM.bind, write, advance, modify_run, zeroFillBlock, zeroFill, stored, hlen,
      Writer.writeAll_append]

def Aligned (b : Builder) : Prop := b.writer.pos = b.curDataBlock * blockSize

theorem aligned_stored {b : Builder} (hb : Aligned b) {n : ℕ} {bs : Bytes}
    (h : bs.length + padding bs.length blockSize = n * blockSize) : Aligned (stored n bs b) := by
  simp only [Aligned, stored, Writer.writeAll_pos, List.length_append, List.length_replicate, h]
  rw [Aligned] at hb
  rw [hb, Nat.add_mul]

theorem triple_hookMeta {P : Builder → Prop} (metadata : Meta) :
    Triple P (hookMeta metadata) (fun _ => P) (fun _ => P) := by
  refine triple_bind triple_get fun b => ?_
  exact triple_conseq (triple_check _ fun _ s _ hs => hs.1) (fun _ h => h) fun _ _ h => h.1.1

theorem aligned_onRoot {α : Type} (act : EStateM Error (Dir Leaf DirInfo) α) :
    Triple Aligned (onRoot act) (fun _ => Aligned) (fun _ => Aligned) := by
  intro b hb
  unfold onRoot
  cases act b.root with
  | ok a root => exact hb
  | error e root => exact hb

/-- A file that passes the checks on its size and on the block number has a
reader with enough bytes for the blocks. -/
def Delivers (b : Builder) : Call → Prop
  | .addFile _ _ len contents =>
    min (b.curFileSize + len) (2 ^ 64 - 1) < b.maxFileSize →
      ((sizeTailLen len).2.1 > 0 → b.curDataBlock < 2 ^ 32) →
        (sizeTailLen len).2.1 ≤ contents.data.length
  | _ => True

theorem readTail_ok {tailLen : ℕ} {contents : Reader} {tail : Option Bytes}
    (h : readTail tailLen contents = .ok tail) : tailLen ≤ contents.data.length := by
  unfold readTail readExact at h
  split_ifs at h with h0 h1
  · simp [Except.map] at h
  · omega
  · omega

theorem startBlock_ok {blockLen cur : ℕ} {start : UInt32}
    (h : (if blockLen > 0 then toU32 cur .blockNoTooBig else .ok erofsNullAddr) = .ok start) :
    blockLen > 0 → cur < 2 ^ 32 := by
  intro hb
  rw [if_pos hb] at h
  unfold toU32 at h
  split_ifs at h with hc
  exact hc

theorem addFile_aligned {b : Builder} (hb : Aligned b) (path : Bytes) (metadata : Meta) (len : ℕ)
    (contents : Reader) (hd : Delivers b (.addFile path metadata len contents)) :
    Triple (· = b) (addFile path metadata len contents)
      (fun _ b' => Aligned b' ∧ len ≤ contents.data.length) (fun _ => Aligned) := by
  have hE : ∀ s, s = b → Aligned s := fun s hs => hs ▸ hb
  refine triple_bind triple_get fun b₁ => ?_
  refine triple_bind (Q := fun _ s => s = b ∧
    min (b.curFileSize + len) (2 ^ 64 - 1) < b.maxFileSize) ?_ fun _ => ?_
  · rintro s ⟨rfl, rfl⟩
    exact triple_require (P := (· = b₁)) _ _ (fun s _ => hE s) _ rfl
  refine triple_bind (Q := fun _ s => s = b ∧
    (sizeTailLen len).2.1 ≤ contents.data.length) ?_ fun start => ?_
  · rintro s ⟨rfl, hsize⟩
    refine triple_bind (triple_get (P := (· = s))) (fun b₂ => ?_) s rfl
    refine triple_conseq (triple_check _ fun _ t _ ht => hE t ht.1) (fun _ h => h) ?_
    rintro start t ⟨⟨rfl, rfl⟩, hs⟩
    exact ⟨rfl, hd hsize (startBlock_ok hs)⟩
  refine triple_bind (Q := fun r s => Aligned s ∧
    r = { contents with data := contents.data.drop (sizeTailLen len).2.1 } ∧
      (sizeTailLen len).2.1 ≤ contents.data.length) ?_ fun r => ?_
  · rintro s ⟨rfl, hl⟩
    rw [copyBlocks_eq s _ _ _ (fun h => sizeTailLen_zero h) hl]
    refine ⟨aligned_stored hb ?_, rfl, hl⟩
    rw [List.length_take_of_le hl, sizeTailLen_padded]
  refine triple_bind (Q := fun _ s => Aligned s ∧ len ≤ contents.data.length) ?_ fun tail => ?_
  · refine triple_conseq (triple_check _ fun _ t _ ht => ht.1) (fun _ h => h) ?_
    rintro tail s ⟨⟨ha, rfl, hl⟩, ht⟩
    have hlen := readTail_ok ht
    have := sizeTailLen_sum len
    rw [List.length_drop] at hlen
    exact ⟨ha, by omega⟩
  refine triple_bind (Q := fun _ s => Aligned s ∧ len ≤ contents.data.length) ?_ fun m => ?_
  · exact triple_frame (triple_hookMeta metadata) _
  · exact triple_frame (aligned_onRoot _) _

theorem addSymlink_aligned (path link : Bytes) (metadata : Meta) :
    Triple Aligned (addSymlink path link metadata) (fun _ => Aligned) (fun _ => Aligned) := by
  refine triple_bind (Q := fun _ => Aligned) ?_ fun start => ?_
  · refine triple_bind triple_get fun b => ?_
    exact triple_conseq (triple_check _ fun _ s _ hs => hs.1) (fun _ h => h) fun _ _ h => h.1.1
  refine triple_bind (Q := fun _ => Aligned) ?_ fun _ => ?_
  · intro b hb
    have hl : (sizeTailLen link.length).2.1 ≤ link.length := by
      have := sizeTailLen_sum link.length
      omega
    rw [writeBlocks_eq b _ _ _ (fun h => sizeTailLen_zero h) hl]
    refine aligned_stored hb ?_
    rw [List.length_take_of_le hl, sizeTailLen_padded]
  exact triple_bind (triple_hookMeta metadata) fun m => aligned_onRoot _

theorem upsertDir_aligned (path : Bytes) (metadata : Meta) :
    Triple Aligned (upsertDir path metadata) (fun _ => Aligned) (fun _ => Aligned) :=
  triple_bind (triple_hookMeta metadata) fun _ => aligned_onRoot _

/-- One call keeps the writer at the next free block, also when it fails. -/
theorem call_aligned {b : Builder} (hb : Aligned b) (c : Call) (hd : Delivers b c) :
    Aligned (stateAfter (c.run b)) ∧
      ∀ path metadata len contents, c = .addFile path metadata len contents →
        result (c.run b) = .ok () → len ≤ contents.data.length := by
  have key : ∀ Q : Unit → Builder → Prop, (∀ b', Q () b' → Aligned b') →
      Triple (· = b) c.run Q (fun _ => Aligned) → Aligned (stateAfter (c.run b)) := by
    intro Q hQ h
    have := h b rfl
    cases hr : c.run b with
    | ok u t =>
      rw [hr] at this
      exact hQ t this
    | error e t =>
      rw [hr] at this
      exact this
  have weak : ∀ x : EStateM Error Builder Unit, Triple Aligned x (fun _ => Aligned) (fun _ => Aligned) →
      Triple (· = b) x (fun _ => Aligned) (fun _ => Aligned) :=
    fun x h => triple_conseq h (fun s hs => hs ▸ hb) fun _ _ h => h
  cases c with
  | addFile path metadata len contents =>
    have h := addFile_aligned hb path metadata len contents hd
    refine ⟨key _ (fun _ h => h.1) h, ?_⟩
    intro path' metadata' len' contents' hc hok
    cases hc
    have := h b rfl
    change result (ErofsBuilder.addFile path metadata len contents b) = _ at hok
    cases hr : ErofsBuilder.addFile path metadata len contents b with
    | ok u t =>
      rw [hr] at this
      exact this.2
    | error e t =>
      rw [hr] at hok
      cases hok
  | addSymlink path link metadata =>
    exact ⟨key _ (fun _ h => h) (weak _ (addSymlink_aligned path link metadata)), by simp⟩
  | upsertDir path metadata =>
    exact ⟨key _ (fun _ h => h) (weak _ (upsertDir_aligned path metadata)), by simp⟩
  | addLink path target metadata => exact ⟨hb, by simp⟩

theorem new_aligned (config : BuilderConfig) : Aligned (Builder.new config) := by
  simp [Aligned, Builder.new]

def AllDeliver (b : Builder) (cs : List Call) : Prop :=
  ∀ pre c post, cs = pre ++ c :: post → Delivers (after b pre) c

theorem run_aligned {b : Builder} (hb : Aligned b) (cs : List Call) (h : AllDeliver b cs) :
    Aligned (after b cs) := by
  induction cs generalizing b with
  | nil => exact hb
  | cons c cs ih =>
    refine ih (call_aligned hb c (h [] c cs rfl)).1 ?_
    intro pre d post hcs
    exact h (c :: pre) d post (by simp [hcs])

/-- In a run in which all readers deliver, each call that returns `Ok` leaves
the writer at the next free block, and a short reader makes its call fail. -/
theorem cursor_invariant (config : BuilderConfig) (cs : List Call)
    (h : AllDeliver (Builder.new config) cs) (pre : List Call) (c : Call) (post : List Call)
    (hcs : cs = pre ++ c :: post) :
    let r := c.run (after (Builder.new config) pre)
    (result r = .ok () → (stateAfter r).writer.pos = (stateAfter r).curDataBlock * blockSize) ∧
      ∀ path metadata len contents, c = .addFile path metadata len contents →
        contents.data.length < len → result r ≠ .ok () := by
  have hpre : Aligned (after (Builder.new config) pre) := by
    refine run_aligned (new_aligned config) pre ?_
    intro pre' d post' hp
    exact h pre' d (post' ++ c :: post) (by simp [hcs, hp])
  have hc := call_aligned hpre c (h pre c post hcs)
  refine ⟨fun _ => hc.1, ?_⟩
  intro path metadata len contents heq hlt hok
  have := hc.2 path metadata len contents heq hok
  omega

def blockFile : Call := .addFile [0x61] Meta.default 4096 ⟨List.replicate 4096 7, false⟩

def tailFile : Call := .addFile [0x62] Meta.default 5 ⟨[1, 2, 3, 4, 5], false⟩

/-- A file that fills a block, and one that goes into a tail. -/
theorem cursor_invariant_two_files :
    AllDeliver (Builder.new ⟨none, none⟩) [blockFile, tailFile] ∧
      let r := tailFile.run (after (Builder.new ⟨none, none⟩) [blockFile])
      result r = .ok () ∧ (stateAfter r).curDataBlock = 2 ∧
        (stateAfter r).writer.pos = (stateAfter r).curDataBlock * blockSize := by
  have h : AllDeliver (Builder.new ⟨none, none⟩) [blockFile, tailFile] := by
    intro pre d post hc
    rcases pre with - | ⟨x, - | ⟨y, pre⟩⟩
    · obtain ⟨rfl, -⟩ := List.cons.inj hc
      exact fun _ _ => (List.length_replicate (n := 4096)).ge
    · obtain ⟨-, hc⟩ := List.cons.inj hc
      obtain ⟨rfl, -⟩ := List.cons.inj hc
      exact fun _ _ => Nat.zero_le _
    · simp at hc
  have hok : result (tailFile.run (after (Builder.new ⟨none, none⟩) [blockFile])) = .ok () := by
    decide +kernel
  exact ⟨h, hok, by decide +kernel,
    (cursor_invariant ⟨none, none⟩ _ h [blockFile] tailFile [] rfl).1 hok⟩

-- An empty reader for one block: the call succeeds, the block is counted and not written.
theorem short_reader_accepted :
    let c := Call.addFile [0x61] Meta.default 4096 ⟨[], false⟩
    let r := c.run (Builder.new ⟨none, none⟩)
    result r = .ok () ∧ (stateAfter r).writer.pos ≠ (stateAfter r).curDataBlock * blockSize := by
  decide

section SizeLimit

variable {φ δ : Type}

theorem avoids_zoom {α : Type} {err : Error} (name : Bytes) (child d : Dir φ δ)
    {act : EStateM Error (Dir φ δ) α} (h : Avoids err act) :
    result (zoom name child d act) ≠ .error err := by
  have := h child
  unfold zoom
  cases hc : act child with
  | ok a t => exact fun hr => nomatch hr
  | error e t =>
    rw [hc] at this
    exact this

theorem avoids_getOrCreateDir {α : Type} {err : Error} (hn : Error.notADir ≠ err)
    (dflt : Dir φ δ) (name : Bytes) {act : EStateM Error (Dir φ δ) α} (h : Avoids err act) :
    Avoids err (getOrCreateDir dflt name act) := by
  intro d
  unfold getOrCreateDir
  split
  · exact avoids_zoom name _ d h
  · exact fun hr => hn (Except.error.inj hr)
  · exact avoids_zoom name dflt d h

theorem avoids_lookupLoop {α : Type} {err : Error}
    (hw : Error.weirdPath ≠ err) (hp : Error.pathWithDotDot ≠ err)
    (sub : Bytes → EStateM Error (Dir φ δ) α → EStateM Error (Dir φ δ) α)
    (hs : ∀ name act, Avoids err act → Avoids err (sub name act))
    (k : Option Bytes → EStateM Error (Dir φ δ) α) (hk : ∀ o, Avoids err (k o))
    (cs : List UnixPath.Component) : Avoids err (lookupLoop sub k cs) := by
  induction cs with
  | nil => exact hk none
  | cons c cs ih =>
    cases cs with
    | nil =>
      cases c with
      | normal name => exact hk (some name)
      | curDir => exact hk none
      | rootDir => exact avoids_throw hw
      | parentDir => exact avoids_throw hw
    | cons c' cs =>
      cases c with
      | normal name => exact hs name _ ih
      | curDir => exact ih
      | rootDir => exact ih
      | parentDir => exact avoids_throw hp

theorem addLeaf_avoids (dflt : Dir φ δ) (path : Bytes) (x : φ) :
    Avoids .maxSizeExceeded (addLeaf dflt path x) := by
  unfold addLeaf
  split_ifs
  · exact avoids_throw (by simp)
  unfold ErofsTree.insert lookupCreate lookupImpl
  split_ifs
  · exact avoids_throw (by simp)
  · exact avoids_throw (by simp)
  · refine avoids_lookupLoop (by simp) (by simp) _
      (fun name act h => avoids_getOrCreateDir (by simp) dflt name h) _ (fun o => ?_) _
    cases o with
    | some name => exact avoids_modify _
    | none => exact avoids_throw (by simp)

theorem avoids_onRoot {α : Type} {err : Error} {act : EStateM Error (Dir Leaf DirInfo) α}
    (h : Avoids err act) : Avoids err (onRoot act) := by
  intro b
  have := h b.root
  unfold onRoot
  cases hr : act b.root with
  | ok a root => exact fun hr => nomatch hr
  | error e root =>
    rw [hr] at this
    exact this

theorem toU32_ne {n : ℕ} {e err : Error} (h : e ≠ err) : toU32 n e ≠ .error err := by
  unfold toU32
  split_ifs
  · simp
  · simpa using h

theorem hookMeta_avoids {err : Error} (h : Error.uidGidTooBig ≠ err) (metadata : Meta) :
    Avoids err (hookMeta metadata) := by
  refine avoids_bind avoids_get fun b => avoids_check ?_
  cases b.incrementUidGid with
  | none => simp
  | some inc =>
    simp only [addIds, bind, Except.bind, toU32]
    split_ifs <;> simp [pure, Except.pure, h]

theorem startBlockFor_avoids {err : Error} (h : Error.blockNoTooBig ≠ err) (n : ℕ) :
    Avoids err (startBlockFor n) := by
  refine avoids_bind avoids_get fun b => avoids_check ?_
  split_ifs
  · exact toU32_ne h
  · simp

theorem copyBlocks_avoids {err : Error} (h : Error.io ≠ err) (n len : ℕ) (contents : Reader) :
    Avoids err (copyBlocks n len contents) := by
  unfold copyBlocks
  split_ifs
  · refine avoids_bind ?_ fun r => avoids_bind (avoids_modify _) fun _ => ?_
    · refine avoids_bind (fun _ h => nomatch h) fun _ => ?_
      exact avoids_bind (avoids_require h) fun _ => avoids_pure _
    · exact avoids_bind (fun _ h => nomatch h) fun _ => avoids_pure _
  · exact avoids_pure _

theorem readTail_ne {err : Error} (h : Error.io ≠ err) (n : ℕ) (contents : Reader) :
    readTail n contents ≠ .error err := by
  unfold readTail readExact
  split_ifs <;> simp [Except.map, h]

theorem addFile_exceeds_iff (b : Builder) (h0 : b.curFileSize = 0) (hm : b.maxFileSize < 2 ^ 64)
    (path : Bytes) (metadata : Meta) (len : ℕ) (contents : Reader) :
    result (addFile path metadata len contents b) = .error .maxSizeExceeded ↔
      b.maxFileSize ≤ len := by
  have hstep : addFile path metadata len contents b =
      (require (min (b.curFileSize + len) (2 ^ 64 - 1) < b.maxFileSize) .maxSizeExceeded >>=
        fun _ => do
          let startBlock ← startBlockFor (sizeTailLen len).2.1
          let contents ← copyBlocks (sizeTailLen len).1 (sizeTailLen len).2.1 contents
          let tail ← check (readTail (sizeTailLen len).2.2 contents)
          let metadata ← hookMeta metadata
          onRoot (addLeaf Dir.default path (.file ⟨metadata, startBlock, 1, len, tail, none⟩))) b :=
    rfl
  constructor
  · intro h
    by_contra hlt
    have hp : min (b.curFileSize + len) (2 ^ 64 - 1) < b.maxFileSize := by omega
    rw [hstep] at h
    simp only [bind, EStateM.bind, require, hp, if_true] at h
    exact avoids_bind (startBlockFor_avoids (by simp) _) (fun start =>
      avoids_bind (copyBlocks_avoids (by simp) _ _ _) fun r =>
        avoids_bind (avoids_check (readTail_ne (by simp) _ _)) fun tail =>
          avoids_bind (hookMeta_avoids (by simp) metadata) fun m =>
            avoids_onRoot (addLeaf_avoids _ _ _)) b h
  · intro hle
    have hp : ¬ min (b.curFileSize + len) (2 ^ 64 - 1) < b.maxFileSize := by omega
    rw [hstep]
    simp only [bind, EStateM.bind, require, hp, if_false]
    rfl

end SizeLimit

def limits (b : Builder) : ℕ × ℕ := (b.maxFileSize, b.curFileSize)

section Parts

variable {κ : Type} {part : Builder → κ}

theorem hookMeta_keeps (metadata : Meta) : Keeps part (hookMeta metadata) :=
  keeps_bind keeps_get fun _ => keeps_check _

theorem startBlockFor_keeps (n : ℕ) : Keeps part (startBlockFor n) :=
  keeps_bind keeps_get fun _ => keeps_check _

theorem onRoot_keeps {α : Type} (hp : ∀ b root, part { b with root := root } = part b)
    (act : EStateM Error (Dir Leaf DirInfo) α) : Keeps part (onRoot act) := by
  intro b
  unfold onRoot
  cases act b.root <;> exact hp b _

variable (hp : ∀ b w c s, part { b with writer := w, curDataBlock := c, stats := s } = part b)
include hp

theorem copyBlocks_keeps (n len : ℕ) (contents : Reader) : Keeps part (copyBlocks n len contents) := by
  unfold copyBlocks
  split_ifs
  · refine keeps_bind ?_ fun r => keeps_bind (keeps_modify fun b => hp b _ _ _) fun _ => ?_
    · refine keeps_bind (fun b => hp b _ _ _) fun _ => ?_
      exact keeps_bind (keeps_require _ _) fun _ => keeps_pure _
    · exact keeps_bind (fun b => hp b _ _ _) fun _ => keeps_pure _
  · exact keeps_pure _

theorem writeBlocks_keeps (n len : ℕ) (data : Bytes) : Keeps part (writeBlocks n len data) := by
  unfold writeBlocks
  split_ifs
  · refine keeps_bind (fun b => hp b _ _ _) fun _ => keeps_bind (fun b => hp b _ _ _) fun _ => ?_
    exact keeps_modify fun b => hp b _ _ _
  · exact keeps_pure _

end Parts

theorem call_keeps_limits (c : Call) : Keeps limits c.run := by
  cases c with
  | addFile path metadata len contents =>
    refine keeps_bind keeps_get fun b => keeps_bind (keeps_require _ _) fun _ => ?_
    refine keeps_bind (startBlockFor_keeps _) fun start => ?_
    refine keeps_bind (copyBlocks_keeps (fun _ _ _ _ => rfl) _ _ _) fun r => ?_
    refine keeps_bind (keeps_check _) fun tail => keeps_bind (hookMeta_keeps _) fun m => ?_
    exact onRoot_keeps (fun _ _ => rfl) _
  | addSymlink path link metadata =>
    refine keeps_bind (startBlockFor_keeps _) fun start => ?_
    refine keeps_bind (writeBlocks_keeps (fun _ _ _ _ => rfl) _ _ _) fun _ => ?_
    exact keeps_bind (hookMeta_keeps _) fun m => onRoot_keeps (fun _ _ => rfl) _
  | upsertDir path metadata =>
    exact keeps_bind (hookMeta_keeps _) fun m => onRoot_keeps (fun _ _ => rfl) _
  | addLink path target metadata => exact keeps_modify fun _ => rfl

theorem after_limits (b : Builder) (cs : List Call) : limits (after b cs) = limits b := by
  induction cs generalizing b with
  | nil => rfl
  | cons c cs ih => rw [after, ih, call_keeps_limits c b]

def acceptedLen (b : Builder) : Call → ℕ
  | .addFile path metadata len contents =>
    if result (addFile path metadata len contents b) = .ok () then len else 0
  | _ => 0

/-- The sum of the lengths over the calls of `add_file` that return `Ok`. -/
def accepted (b : Builder) : List Call → ℕ
  | [] => 0
  | c :: cs => acceptedLen b c + accepted (stateAfter (c.run b)) cs

theorem accepted_concat (b : Builder) (cs : List Call) (c : Call) :
    accepted b (cs ++ [c]) = accepted b cs + acceptedLen (after b cs) c := by
  induction cs generalizing b with
  | nil => simp [accepted, after]
  | cons d cs ih => simp [accepted, after, ih, add_assoc]

theorem exceeds_after (m : UInt64) (inc : Option UInt32) (pre : List Call) (path : Bytes)
    (metadata : Meta) (len : ℕ) (contents : Reader) :
    result (addFile path metadata len contents (after (Builder.new ⟨some m, inc⟩) pre)) =
      .error .maxSizeExceeded ↔ m.toNat ≤ len := by
  have hl := after_limits (Builder.new ⟨some m, inc⟩) pre
  obtain ⟨hmax, hcur⟩ := Prod.mk.inj hl
  have hm : (after (Builder.new ⟨some m, inc⟩) pre).maxFileSize = m.toNat := hmax
  rw [addFile_exceeds_iff _ hcur (by rw [hm]; exact m.toNat_lt), hm]

/-- The total stays below the limit, and each call that would reach it is
refused, exactly when the limit is positive and each call that would reach it
is over the limit by itself. -/
theorem size_cap_iff (m : UInt64) (inc : Option UInt32) (cs : List Call) :
    (accepted (Builder.new ⟨some m, inc⟩) cs < m.toNat ∧
      ∀ pre path metadata len contents post,
        cs = pre ++ .addFile path metadata len contents :: post →
        m.toNat ≤ accepted (Builder.new ⟨some m, inc⟩) pre + len →
          result (addFile path metadata len contents (after (Builder.new ⟨some m, inc⟩) pre)) =
            .error .maxSizeExceeded) ↔
    0 < m.toNat ∧ ∀ pre path metadata len contents post,
      cs = pre ++ .addFile path metadata len contents :: post →
        m.toNat ≤ len ∨ accepted (Builder.new ⟨some m, inc⟩) pre + len < m.toNat := by
  constructor
  · rintro ⟨htotal, hcap⟩
    refine ⟨by omega, ?_⟩
    intro pre path metadata len contents post hcs
    by_cases hle : m.toNat ≤ accepted (Builder.new ⟨some m, inc⟩) pre + len
    · have h := hcap pre path metadata len contents post hcs hle
      exact Or.inl ((exceeds_after m inc pre path metadata len contents).mp h)
    · exact Or.inr (by omega)
  · rintro ⟨hpos, hcond⟩
    constructor
    · have hpre : ∀ pre post, cs = pre ++ post →
          accepted (Builder.new ⟨some m, inc⟩) pre < m.toNat := by
        intro pre
        induction pre using List.reverseRecOn with
        | nil => exact fun _ _ => hpos
        | append_singleton pre c ih =>
          intro post hcs
          have hlt := ih (c :: post) (by simp [hcs])
          rw [accepted_concat]
          cases c with
          | addFile path metadata len contents =>
            have hc := hcond pre path metadata len contents post (by simp [hcs])
            have he := exceeds_after m inc pre path metadata len contents
            simp only [acceptedLen]
            split_ifs with hok
            · rw [hok] at he
              have : ¬ m.toNat ≤ len := by simpa using he
              omega
            · omega
          | addSymlink path link metadata => simpa [acceptedLen] using hlt
          | upsertDir path metadata => simpa [acceptedLen] using hlt
          | addLink path target metadata => simpa [acceptedLen] using hlt
      exact hpre cs [] (by simp)
    · intro pre path metadata len contents post hcs hle
      rw [exceeds_after]
      have := hcond pre path metadata len contents post hcs
      omega

-- Two files of six bytes under a limit of ten: both calls succeed.
theorem small_files_pass_cap :
    let b := Builder.new ⟨some 10, none⟩
    let file (name : UInt8) := Call.addFile [name] Meta.default 6 ⟨[1, 2, 3, 4, 5, 6], false⟩
    result ((file 0x62).run (after b [file 0x61])) = .ok () ∧
      accepted b [file 0x61, file 0x62] = 12 := by
  decide

end ProgramExplorer.ErofsCursor
