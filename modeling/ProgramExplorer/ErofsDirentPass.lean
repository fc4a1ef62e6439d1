import ProgramExplorer.ErofsPasses

/-!
# Filling the directory blocks

The last pass goes through the directories in the order in which their blocks
were reserved, so each write starts where the one before ended and leaves
everything outside the reserved blocks alone. Afterwards the blocks of every
directory hold the ids of its children, of itself and of its parent.
-/

set_option autoImplicit false

namespace ProgramExplorer.ErofsDirentPass
open ByteStrings ByteStore StateRules FileTree ErofsTree ErofsDisk ErofsBuilder ErofsCursor
open ErofsContents ErofsDirents ErofsWalk ErofsPasses

def Window (lo hi : ℕ) (data data' : Bytes) : Prop :=
  ∀ off bs, off + bs.length ≤ lo * blockSize ∨ hi * blockSize ≤ off → HasAt data off bs →
    HasAt data' off bs

theorem Window.refl (lo hi : ℕ) (data : Bytes) : Window lo hi data data := fun _ _ _ h => h

theorem Window.trans {lo mid hi : ℕ} {data data' data'' : Bytes} (h : Window lo mid data data')
    (h' : Window mid hi data' data'') (hlo : lo ≤ mid) (hhi : mid ≤ hi) : Window lo hi data data'' := by
  intro off bs hout hat
  have h1 := Nat.mul_le_mul_right blockSize hlo
  have h2 := Nat.mul_le_mul_right blockSize hhi
  exact h' off bs (by omega) (h off bs (by omega) hat)

def Kept (lo hi : ℕ) (data data' : Bytes) : Prop :=
  ∀ off bs, lo * blockSize ≤ off → off + bs.length ≤ hi * blockSize → HasAt data off bs →
    HasAt data' off bs

theorem Kept.sub {lo hi lo' hi' : ℕ} {data data' : Bytes} (h : Kept lo hi data data')
    (hlo : lo ≤ lo') (hhi : hi' ≤ hi) : Kept lo' hi' data data' := by
  intro off bs h1 h2
  have h3 := Nat.mul_le_mul_right blockSize hlo
  have h4 := Nat.mul_le_mul_right blockSize hhi
  exact h off bs (by omega) (by omega)

theorem Window.kept {lo hi lo' hi' : ℕ} {data data' : Bytes} (h : Window lo hi data data')
    (hd : hi' ≤ lo ∨ hi ≤ lo') : Kept lo' hi' data data' := by
  intro off bs h1 h2
  refine h off bs ?_
  rcases hd with hd | hd
  · have := Nat.mul_le_mul_right blockSize hd
    omega
  · have := Nat.mul_le_mul_right blockSize hd
    omega

theorem pad_block {n : ℕ} (h0 : 0 < n) (hle : n ≤ blockSize) :
    padding n blockSize = blockSize - n := by
  unfold padding
  split_ifs with h
  · simp only [blockSize] at *
    omega
  · simp only [blockSize] at *
    omega

theorem blockBytes_pos {own parent : Option UInt32} {cs : List Child} (h : Block (namesOf cs)) :
    0 < (blockBytes own parent cs).length := by
  have hlen := blockBytes_length own parent cs
  have hpos : 0 < (namesOf cs).length := List.length_pos_of_ne_nil h.1
  rw [need_eq] at hlen
  omega

structure Fills (own parent : Option UInt32) (blocks : List (List Child)) (b b' : Builder) : Prop where
  cursor : b'.curDataBlock = b.curDataBlock + blocks.length
  pos : b'.writer.pos = b'.curDataBlock * blockSize
  written : HasAt b'.writer.data (b.curDataBlock * blockSize) (dirData own parent blocks)
  window : Window b.curDataBlock b'.curDataBlock b.writer.data b'.writer.data
  meta_eq : b'.metaBlock = b.metaBlock
  ids : ∀ c ∈ blocks.flatten, childDiskId own parent c.2 = some (childId own parent c)

theorem dirData_cons_hasAt {own parent : Option UInt32} {cs : List Child} {blocks : List (List Child)}
    {data : Bytes} {block : ℕ} (hle : (blockBytes own parent cs).length ≤ blockSize)
    (hfirst : HasAt data (block * blockSize) (blockBytes own parent cs ++
      List.replicate (blockSize - (blockBytes own parent cs).length) 0))
    (hrest : HasAt data ((block + 1) * blockSize) (dirData own parent blocks)) :
    HasAt data (block * blockSize) (dirData own parent (cs :: blocks)) := by
  cases blocks with
  | nil => exact ((hasAt_append _ _ _ _).mp hfirst).1
  | cons cs' blocks =>
    have hsplit : dirData own parent (cs :: cs' :: blocks) = (blockBytes own parent cs ++
        List.replicate (blockSize - (blockBytes own parent cs).length) 0) ++
          dirData own parent (cs' :: blocks) := by
      rw [List.append_assoc]
      rfl
    rw [hsplit, hasAt_append]
    refine ⟨hfirst, ?_⟩
    have hlen : (blockBytes own parent cs ++
        List.replicate (blockSize - (blockBytes own parent cs).length) 0).length = blockSize := by
      rw [List.length_append, List.length_replicate]
      omega
    rwa [hlen, ← Nat.succ_mul]

theorem window_stored {b : Builder} (ha : Aligned b) {bs : Bytes} (h0 : 0 < bs.length)
    (hle : bs.length ≤ blockSize) :
    Window b.curDataBlock (b.curDataBlock + 1) b.writer.data (stored 1 bs b).writer.data := by
  intro off cs hout hat
  refine hat.overwrite ?_
  rw [Aligned] at ha
  rw [List.length_append, List.length_replicate, pad_block h0 hle, ha]
  rw [Nat.succ_mul] at hout
  omega

theorem stored_padded {b : Builder} (ha : Aligned b) {bs : Bytes} (h0 : 0 < bs.length)
    (hle : bs.length ≤ blockSize) :
    HasAt (stored 1 bs b).writer.data (b.curDataBlock * blockSize)
      (bs ++ List.replicate (blockSize - bs.length) 0) := by
  rw [← ha, ← pad_block h0 hle]
  exact b.writer.hasAt_writeAll _

theorem writeDirentBlocks_cons_ok {own parent : Option UInt32} {cs : List Child}
    {blocks : List (List Child)} {b b' : Builder}
    (h : writeDirentBlocks own parent ((cs :: blocks).map List.length) (cs :: blocks).flatten b =
      .ok () b') :
    (∀ c ∈ cs, childDiskId own parent c.2 = some (childId own parent c)) ∧
      writeDirentBlocks own parent (blocks.map List.length) blocks.flatten
        (stored 1 (blockBytes own parent cs) b) = .ok () b' := by
  have htake : (cs :: blocks).flatten.take cs.length = cs := by simp
  have hdrop : (cs :: blocks).flatten.drop cs.length = blocks.flatten := by simp
  rw [List.map_cons, writeDirentBlocks, bind_eq_ok] at h
  obtain ⟨_, b₀, hreq, h1⟩ := h
  obtain ⟨-, rfl⟩ := require_eq_ok.mp hreq
  rw [htake, hdrop, bind_eq_ok] at h1
  obtain ⟨recs, b₁, henc, h2⟩ := h1
  obtain ⟨hrecs, rfl⟩ := check_eq_ok.mp henc
  rw [Nat.mul_comm] at hrecs
  obtain ⟨rfl, hids⟩ := encodeDirents_ok own parent hrecs
  refine ⟨hids, ?_⟩
  rw [← h2]
  simp only [bind, EStateM.bind, write, zeroFillBlock, zeroFill, advance, modify_run, Writer.writeAll_append]
  rfl

theorem writeDirentBlocks_fills {own parent : Option UInt32} (blocks : List (List Child))
    (hb : ∀ cs ∈ blocks, Block (namesOf cs)) {b b' : Builder} (ha : Aligned b)
    (h : writeDirentBlocks own parent (blocks.map List.length) blocks.flatten b = .ok () b') :
    Fills own parent blocks b b' := by
  induction blocks generalizing b with
  | nil =>
    obtain ⟨-, rfl⟩ := pure_eq_ok.mp h
    exact ⟨rfl, ha, hasAt_nil _ _, Window.refl _ _ _, rfl, by simp⟩
  | cons cs blocks ih =>
    have hblock := hb cs (by simp)
    have hlen := blockBytes_length own parent cs
    have hle := hblock.2
    rw [← hlen] at hle
    have hpos := @blockBytes_pos own parent _ hblock
    obtain ⟨hids, h3⟩ := writeDirentBlocks_cons_ok h
    have ha₁ : Aligned (stored 1 (blockBytes own parent cs) b) :=
      aligned_stored ha (by rw [pad_block hpos hle]; omega)
    have hrest := ih (fun cs' hm => hb cs' (by simp [hm])) ha₁ h3
    have hwin := window_stored ha hpos hle
    have hcur : (stored 1 (blockBytes own parent cs) b).curDataBlock = b.curDataBlock + 1 := rfl
    have hcur' := hrest.cursor
    refine ⟨?_, hrest.pos, ?_, ?_, hrest.meta_eq, ?_⟩
    · rw [hrest.cursor, hcur, List.length_cons]
      omega
    · refine dirData_cons_hasAt hle (hrest.window _ _ (Or.inl ?_) (stored_padded ha hpos hle)) ?_
      · rw [List.length_append, List.length_replicate, hcur, Nat.succ_mul]
        omega
      · exact hrest.written
    · exact hwin.trans hrest.window (by omega) (by omega)
    · intro c hc
      rw [List.flatten_cons, List.mem_append] at hc
      exact hc.elim (hids c) (hrest.ids c)

/-- Blocks that hold their entries are written as they are counted. -/
theorem writeDirentBlocks_moves {own parent : Option UInt32} (blocks : List (List Child))
    (hb : ∀ cs ∈ blocks, Block (namesOf cs)) {b b' : Builder}
    (h : writeDirentBlocks own parent (blocks.map List.length) blocks.flatten b = .ok () b') :
    b'.writer.pos = b.writer.pos + blocks.length * blockSize ∧
      b'.curDataBlock = b.curDataBlock + blocks.length := by
  induction blocks generalizing b with
  | nil =>
    obtain ⟨-, rfl⟩ := pure_eq_ok.mp h
    simp
  | cons cs blocks ih =>
    have hblock := hb cs (by simp)
    have hle := hblock.2
    rw [← blockBytes_length own parent cs] at hle
    have hpos := @blockBytes_pos own parent _ hblock
    obtain ⟨-, hrest⟩ := writeDirentBlocks_cons_ok h
    obtain ⟨hw, hc⟩ := ih (fun cs' hm => hb cs' (by simp [hm])) hrest
    rw [hw, hc, List.length_cons]
    simp only [stored, Writer.writeAll_pos, List.length_append, List.length_replicate,
      pad_block hpos hle, Nat.succ_mul]
    omega

mutual
/-- The blocks of every directory hold its entries, with the ids of the
directory itself and of its parent for `.` and `..`. -/
inductive Linked (data : Bytes) : Option UInt32 → Dirent → Prop
  | leaf {parent : Option UInt32} {x : Leaf} : Linked data parent (.leaf x)
  | dir {parent : Option UInt32} {info : DirInfo} {id : UInt32} {cs : List Child}
      {blocks : List (List Child)} (hid : info.diskId = some id) (hcs : cs = blocks.flatten)
      (hb : ∀ cs ∈ blocks, Block (namesOf cs))
      (ht : info.totalSize = (dirData (some id) parent blocks).length)
      (hn : info.nDirentsPerBlock = blocks.map List.length)
      (hat : HasAt data (info.startBlock.toNat * blockSize) (dirData (some id) parent blocks))
      (hids : ∀ c ∈ cs, childDiskId (some id) parent c.2 = some (childId (some id) parent c))
      (hc : LinkedList data (some id) cs) : Linked data parent (.dir info cs)

inductive LinkedList (data : Bytes) : Option UInt32 → List Child → Prop
  | nil {parent : Option UInt32} : LinkedList data parent []
  | cons {parent : Option UInt32} {name : Bytes} {t : Dirent} {cs : List Child}
      (h : Linked data parent t) (hc : LinkedList data parent cs) :
      LinkedList data parent ((name, t) :: cs)
end

theorem dirData_length_le {own parent : Option UInt32} {blocks : List (List Child)}
    (hb : ∀ cs ∈ blocks, Block (namesOf cs)) :
    (dirData own parent blocks).length ≤ blocks.length * blockSize := by
  induction blocks with
  | nil => simp [dirData]
  | cons cs blocks ih =>
    have hlen := blockBytes_length own parent cs
    have hle := (hb cs (by simp)).2
    have ih := ih fun cs' hm => hb cs' (by simp [hm])
    rw [List.length_cons, Nat.succ_mul]
    cases blocks with
    | nil =>
      rw [dirData]
      omega
    | cons cs' blocks =>
      rw [dirData, List.length_append, List.length_append, List.length_replicate]
      · omega
      · simp

mutual
theorem linked_mono {data data' : Bytes} : ∀ (t : Dirent) {lo hi : ℕ} {parent : Option UInt32},
    Laid lo t hi → Linked data parent t → Kept lo hi data data' → Linked data' parent t
  | .leaf _, _, _, _, _, _ => fun _ => .leaf
  | .dir info cs, lo, hi, parent, hlaid, hlinked => by
    intro hk
    cases hlaid with
    | dir hs hl hc =>
      cases hlinked with
      | @dir _ _ id _ blocks hid hcs hb ht hn hat hids hlinks =>
        have hle := Nat.mul_le_mul_right blockSize hc.le
        have hlen := @dirData_length_le (some id) parent blocks hb
        rw [← hl, hn, List.length_map, Nat.add_mul] at hle
        exact .dir hid hcs hb ht hn (hk _ _ (by rw [hs]) (by rw [hs]; omega) hat) hids
          (linkedList_mono cs hc hlinks (hk.sub (by omega) (le_refl _)))

theorem linkedList_mono {data data' : Bytes} : ∀ (cs : List Child) {lo hi : ℕ}
    {parent : Option UInt32}, LaidList lo cs hi → LinkedList data parent cs →
      Kept lo hi data data' → LinkedList data' parent cs
  | [], _, _, _, _, _ => fun _ => .nil
  | (name, t) :: cs, lo, hi, parent, hlaid, hlinked => by
    intro hk
    cases hlaid with
    | cons h hc =>
      cases hlinked with
      | cons hl hlc =>
        exact .cons (linked_mono t h hl (hk.sub (le_refl _) hc.le))
          (linkedList_mono cs hc hlc (hk.sub h.le (le_refl _)))
end

theorem dirData_length (own parent : Option UInt32) (front : List (List Child)) (last : List Child)
    (hb : ∀ cs ∈ front, Block (namesOf cs)) :
    (dirData own parent (front ++ [last])).length =
      blockSize * front.length + need (namesOf last) := by
  induction front with
  | nil => simp [dirData, blockBytes_length]
  | cons cs front ih =>
    have ih := ih fun cs' hm => hb cs' (by simp [hm])
    have hle := (hb cs (by simp)).2
    have hlen := blockBytes_length own parent cs
    rw [List.cons_append, dirData, List.length_append, List.length_append, List.length_replicate, ih,
      List.length_cons, Nat.mul_succ]
    · omega
    · simp

theorem exists_blocks {α β : Type} {f : α → β} {xs : List α} {blocks : List (List β)}
    (h : xs.map f = blocks.flatten) :
    ∃ blocks' : List (List α), xs = blocks'.flatten ∧ blocks'.map (List.map f) = blocks := by
  induction blocks generalizing xs with
  | nil => exact ⟨[], by simpa using h, rfl⟩
  | cons block blocks ih =>
    obtain ⟨xs₁, xs₂, rfl, h₁, h₂⟩ := List.map_eq_append_iff.mp h
    obtain ⟨blocks', rfl, rfl⟩ := ih h₂
    exact ⟨xs₁ :: blocks', rfl, by rw [List.map_cons, h₁]⟩

theorem packed_children {cs : List Child} {counts : List ℕ} {total : ℕ}
    (h : Packed (cs.map (·.1)) counts total) :
    ∃ blocks : List (List Child), cs = blocks.flatten ∧ counts = blocks.map List.length ∧
      blocks ≠ [] ∧ (∀ block ∈ blocks, Block (namesOf block)) ∧
      ∀ own parent, total = (dirData own parent blocks).length := by
  obtain ⟨front, last, hnames, hcounts, htotal, hb⟩ := h
  obtain ⟨blocks, hcs, hmap⟩ := exists_blocks hnames
  obtain ⟨front', rest, rfl, hfront, hrest⟩ := List.map_eq_append_iff.mp hmap
  obtain ⟨last', rfl, hlast⟩ := List.map_eq_singleton_iff.mp hrest
  have hb' : ∀ block ∈ front' ++ [last'], Block (namesOf block) := by
    intro block hm
    refine hb _ ?_
    rw [← hmap]
    exact List.mem_map_of_mem hm
  refine ⟨front' ++ [last'], hcs, ?_, by simp, hb', ?_⟩
  · rw [hcounts, ← hmap, List.map_map]
    refine List.map_congr_left fun block _ => ?_
    simp
  · intro own parent
    rw [dirData_length _ _ _ _ fun cs hm => hb' cs (by simp [hm]), htotal, ← hfront, ← hlast]
    simp [namesOf]

theorem writeDirents_enter {info info' : DirInfo} {cs : List Child} {s s' : Builder × List UInt32}
    (h : writeDirents.onDirEnter info cs s = .ok info' s') :
    ∃ b₁ b₂ id, info' = info ∧ info.diskId = some id ∧
      seekBlock info.startBlock.toNat s.1 = .ok () b₁ ∧
      writeDirentBlocks info.diskId s.2.head? info.nDirentsPerBlock cs b₁ = .ok () b₂ ∧
      s' = (b₂, id :: s.2) := by
  simp only [writeDirents] at h
  split at h
  · rename_i id b hrun
    cases h
    obtain ⟨_, b₁, hseek, h1⟩ := bind_eq_ok.mp hrun
    obtain ⟨_, b₂, hwrite, h2⟩ := bind_eq_ok.mp h1
    obtain ⟨hid, rfl⟩ := check_eq_ok.mp h2
    exact ⟨b₁, _, id, rfl, okOr_eq_ok.mp hid, hseek, hwrite, rfl⟩
  · cases h

theorem seekBlock_ok {block metaBlock : ℕ} {b b₁ : Builder} (hne : block ≠ metaBlock)
    (hc : b.curDataBlock = metaBlock ∨ Aligned b) (h : seekBlock block b = .ok () b₁) :
    Aligned b₁ ∧ b₁.curDataBlock = block ∧ b₁.writer.data = b.writer.data ∧ b₁.metaBlock = b.metaBlock := by
  unfold seekBlock at h
  cases h
  split_ifs with hcur
  · exact ⟨rfl, rfl, rfl, rfl⟩
  · have hcur : b.curDataBlock = block := not_not.mp hcur
    exact ⟨hc.resolve_left (by omega), hcur, rfl, rfl⟩

structure Passes (metaBlock lo hi : ℕ) (s s' : Builder × List UInt32) : Prop where
  parents : s'.2 = s.2
  cursor : s'.1.curDataBlock = metaBlock ∨ Aligned s'.1
  window : Window lo hi s.1.writer.data s'.1.writer.data
  meta_eq : s'.1.metaBlock = s.1.metaBlock

section Walk

variable {metaBlock maxDepth : ℕ} {φ δ : Type} {L : Bytes → Leaf → φ → Prop}
  {D : Bytes → List Bytes → DirInfo → δ → Prop}

mutual
theorem writeDirents_tree
    (hD : ∀ n names info e, D n names info e → Packed names info.nDirentsPerBlock info.totalSize) :
    ∀ (t : Dirent) {lo hi depth : ℕ} {n : Bytes} {u : Tree φ δ}
    {s s' : Builder × List UInt32} {t' : Dirent}, Laid lo t hi → Rel L D n t u →
      hi ≤ metaBlock → s.1.curDataBlock = metaBlock ∨ Aligned s.1 →
        walkTree writeDirents maxDepth depth t s = .ok t' s' →
          t' = t ∧ Passes metaBlock lo hi s s' ∧ Linked s'.1.writer.data s.2.head? t
  | .leaf x, lo, hi, depth, n, u, s, s', t', hlaid, hrel, hmeta, hcur, hw => by
    obtain ⟨x', hx, rfl⟩ := walkTree_leaf_ok hw
    have hsame : walkLeaf writeDirents x s = .ok x s := by cases x <;> rfl
    rw [hsame] at hx
    cases hx
    exact ⟨rfl, ⟨rfl, hcur, Window.refl _ _ _, rfl⟩, .leaf⟩
  | .dir info cs, lo, hi, depth, n, u, s, s', t', hlaid, hrel, hmeta, hcur, hw => by
    cases hrel with
    | dir hd hrc =>
      cases hlaid with
      | @dir _ mid _ _ _ hs hl hc =>
        obtain ⟨-, info₁, s₁, cs', s₂, info₂, henter, hcs, hexit, rfl⟩ := walkTree_dir_ok hw
        obtain ⟨b₁, b₂, id, hinfo, hid, hseek, hwrite, rfl⟩ := writeDirents_enter henter
        obtain ⟨blocks, hcs', hcounts, hne, hb, htotal⟩ := packed_children (hD _ _ _ _ hd)
        have hpos : 0 < blocks.length := List.length_pos_of_ne_nil hne
        have hlen : info.nDirentsPerBlock.length = blocks.length := by rw [hcounts, List.length_map]
        have hle := hc.le
        have hbelow : info.startBlock.toNat ≠ metaBlock := by omega
        obtain ⟨ha, hb₁, hdata, hfix⟩ := seekBlock_ok hbelow hcur hseek
        rw [hcounts, hid, hcs'] at hwrite
        have hfill := writeDirentBlocks_fills blocks hb ha hwrite
        have hcur₂ : b₂.curDataBlock = mid := by
          rw [hfill.cursor, hb₁, hs, ← hlen, hl]
        obtain ⟨rfl, hpass, hlinks⟩ := writeDirents_children hD cs hc hrc hmeta
          (Or.inr (show Aligned b₂ from hfill.pos)) hcs
        have hexit' : info₁ = info₂ ∧ s' = (s₂.1, s₂.2.tail) := by
          cases hexit
          exact ⟨rfl, rfl⟩
        obtain ⟨rfl, rfl⟩ := hexit'
        subst hinfo
        have hwin : Window lo mid s.1.writer.data b₂.writer.data := by
          have := hfill.window
          rwa [hb₁, hs, hcur₂, hdata] at this
        have hat := hfill.written
        rw [hb₁] at hat
        refine ⟨rfl, ⟨?_, hpass.cursor, hwin.trans hpass.window (by omega) hle, ?_⟩, ?_⟩
        · rw [hpass.parents]
          rfl
        · exact hpass.meta_eq.trans (hfill.meta_eq.trans hfix)
        · refine .dir hid hcs' hb (htotal _ _) hcounts (hpass.window _ _ (Or.inl ?_) hat) ?_ hlinks
          · have hbound := @dirData_length_le (some id) s.2.head? blocks hb
            rw [hs, ← hl, hlen, Nat.add_mul]
            omega
          · rw [hcs']
            exact hfill.ids

theorem writeDirents_children
    (hD : ∀ n names info e, D n names info e → Packed names info.nDirentsPerBlock info.totalSize) :
    ∀ (cs : List Child) {lo hi depth : ℕ}
    {us : List (Bytes × Tree φ δ)} {s s' : Builder × List UInt32} {cs' : List Child},
      LaidList lo cs hi → RelList L D cs us → hi ≤ metaBlock →
        s.1.curDataBlock = metaBlock ∨ Aligned s.1 →
          walkChildren writeDirents maxDepth depth cs s = .ok cs' s' →
            cs' = cs ∧ Passes metaBlock lo hi s s' ∧ LinkedList s'.1.writer.data s.2.head? cs
  | [], lo, hi, depth, us, s, s', cs', hlaid, hrel, hmeta, hcur, hw => by
    obtain ⟨rfl, rfl⟩ := walkChildren_nil_ok hw
    exact ⟨rfl, ⟨rfl, hcur, Window.refl _ _ _, rfl⟩, .nil⟩
  | (name, t) :: cs, lo, hi, depth, us, s, s', cs', hlaid, hrel, hmeta, hcur, hw => by
    cases hrel with
    | cons hr hrc =>
      cases hlaid with
      | cons h hc =>
        obtain ⟨t', s₁, cs₁, ht, hcs, rfl⟩ := walkChildren_cons_ok hw
        have hle := hc.le
        obtain ⟨rfl, hp, hlink⟩ := writeDirents_tree hD t h hr (by omega) hcur ht
        obtain ⟨rfl, hpc, hlinks⟩ := writeDirents_children hD cs hc hrc hmeta hp.cursor hcs
        rw [hp.parents] at hlinks
        refine ⟨rfl, ⟨hpc.parents.trans hp.parents, hpc.cursor,
          hp.window.trans hpc.window h.le hle, hpc.meta_eq.trans hp.meta_eq⟩, .cons ?_ hlinks⟩
        exact linked_mono _ h hlink (hpc.window.kept (Or.inl (le_refl _)))
end

end Walk

end ProgramExplorer.ErofsDirentPass
