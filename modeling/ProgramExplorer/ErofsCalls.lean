import ProgramExplorer.ErofsContents

/-!
# What a call does to the tree

A call of the builder acts on the tree through one path operation, on the
queue of hard links, or it is refused before it reaches either. Everything
that is proved about the tree after a sequence of calls starts from this.
-/

set_option autoImplicit false

namespace ProgramExplorer.ErofsCalls
open ByteStrings StateRules ErofsTree ErofsBuilder ErofsCursor ErofsContents

structure Same (b b' : Builder) : Prop where
  root : b'.root = b.root
  links : b'.links = b.links
  increment : b'.incrementUidGid = b.incrementUidGid

theorem Same.refl (b : Builder) : Same b b := ⟨rfl, rfl, rfl⟩

def treePart (b : Builder) : Dir Leaf DirInfo × List (Bytes × Bytes × Meta) × Option UInt32 :=
  (b.root, b.links, b.incrementUidGid)

theorem same_of_keeps {α : Type} {x : EStateM Error Builder α} (h : Keeps treePart x) (b : Builder) :
    Same b (stateAfter (x b)) := by
  have hb := h b
  simp only [treePart, Prod.mk.injEq] at hb
  exact ⟨hb.1, hb.2.1, hb.2.2⟩

theorem Same.trans {b b' b'' : Builder} (h : Same b b') (h' : Same b' b'') : Same b b'' :=
  ⟨h'.root.trans h.root, h'.links.trans h.links, h'.increment.trans h.increment⟩

inductive Effect (b : Builder) : Call → EStateM.Result Error Builder Unit → Prop
  | refused {c : Call} {e : Error} {b' : Builder} (he : e ≠ .notADir) (hs : Same b b') :
      Effect b c (.error e b')
  | file {path : Bytes} {metadata : Meta} {len : ℕ} {contents : Reader} {f : File} {b' : Builder}
      (hs : Same b b') (hm : hooked b.incrementUidGid metadata = .ok f.metadata) :
      Effect b (.addFile path metadata len contents) (onRoot (addLeaf Dir.default path (.file f)) b')
  | symlink {path link : Bytes} {metadata : Meta} {s : Symlink} {b' : Builder} (hs : Same b b')
      (hm : hooked b.incrementUidGid metadata = .ok s.metadata) :
      Effect b (.addSymlink path link metadata) (onRoot (addLeaf Dir.default path (.symlink s)) b')
  | dir {path : Bytes} {metadata m : Meta} (hm : hooked b.incrementUidGid metadata = .ok m) :
      Effect b (.upsertDir path metadata)
        (onRoot (ErofsTree.upsertDir Dir.default path fun d => { d with metadata := m }) b)
  | link {path target : Bytes} {metadata : Meta} :
      Effect b (.addLink path target metadata)
        (.ok () { b with links := b.links ++ [(path, target, metadata)] })

/-- A first part that leaves the tree alone either refuses or goes on. -/
theorem effect_bind {α : Type} {c : Call} {b₀ b : Builder} (hs : Same b₀ b)
    {x : EStateM Error Builder α} {f : α → EStateM Error Builder Unit} (hk : Keeps treePart x)
    (ha : Avoids .notADir x)
    (hf : ∀ a b', x b = .ok a b' → Same b₀ b' → Effect b₀ c (f a b')) : Effect b₀ c ((x >>= f) b) := by
  have hsame := same_of_keeps hk b
  have hne := ha b
  rcases bind_cases x f b with ⟨a, b', hx, h⟩ | ⟨e, b', hx, h⟩
  · rw [hx] at hsame
    rw [h]
    exact hf a b' hx (hs.trans hsame)
  · rw [hx] at hsame hne
    rw [h]
    exact .refused (fun he => hne (by rw [he]; rfl)) (hs.trans hsame)

theorem writeBlocks_avoids {err : Error} (n len : ℕ) (data : Bytes) :
    Avoids err (writeBlocks n len data) := by
  unfold writeBlocks
  split_ifs
  · refine avoids_bind (fun _ h => nomatch h) fun _ => avoids_bind (fun _ h => nomatch h) fun _ => ?_
    exact avoids_modify _
  · exact avoids_pure _

theorem addFile_effect (b : Builder) (path : Bytes) (metadata : Meta) (len : ℕ) (contents : Reader) :
    Effect b (.addFile path metadata len contents) (addFile path metadata len contents b) := by
  refine effect_bind (Same.refl b) keeps_get avoids_get fun _ b₁ _ h₁ => ?_
  refine effect_bind h₁ (keeps_require _ _) (avoids_require (by simp)) fun _ b₂ _ h₂ => ?_
  refine effect_bind h₂ (startBlockFor_keeps _) (startBlockFor_avoids (by simp) _)
    fun start b₃ _ h₃ => ?_
  refine effect_bind h₃ (copyBlocks_keeps (fun _ _ _ _ => rfl) _ _ _)
    (copyBlocks_avoids (by simp) _ _ _) fun r b₄ _ h₄ => ?_
  refine effect_bind h₄ (keeps_check _) (avoids_check (readTail_ne (by simp) _ _))
    fun tail b₅ _ h₅ => ?_
  refine effect_bind h₅ (hookMeta_keeps _) (hookMeta_avoids (by simp) _) fun m b₆ hm h₆ => ?_
  obtain ⟨hhook, -⟩ := hookMeta_ok hm
  exact .file h₆ (h₅.increment ▸ hhook)

theorem addSymlink_effect (b : Builder) (path link : Bytes) (metadata : Meta) :
    Effect b (.addSymlink path link metadata) (addSymlink path link metadata b) := by
  refine effect_bind (Same.refl b) (startBlockFor_keeps _) (startBlockFor_avoids (by simp) _)
    fun start b₁ _ h₁ => ?_
  refine effect_bind h₁ (writeBlocks_keeps (fun _ _ _ _ => rfl) _ _ _) (writeBlocks_avoids _ _ _)
    fun _ b₂ _ h₂ => ?_
  refine effect_bind h₂ (hookMeta_keeps _) (hookMeta_avoids (by simp) _) fun m b₃ hm h₃ => ?_
  obtain ⟨hhook, -⟩ := hookMeta_ok hm
  exact .symlink h₃ (h₂.increment ▸ hhook)

theorem upsertDir_effect (b : Builder) (path : Bytes) (metadata : Meta) :
    Effect b (.upsertDir path metadata) (ErofsBuilder.upsertDir path metadata b) := by
  refine effect_bind (Same.refl b) (hookMeta_keeps _) (hookMeta_avoids (by simp) _) fun m b₁ hm h₁ => ?_
  obtain ⟨hhook, rfl⟩ := hookMeta_ok hm
  exact .dir hhook

theorem call_effect (b : Builder) (c : Call) : Effect b c (c.run b) := by
  cases c with
  | addFile path metadata len contents => exact addFile_effect b path metadata len contents
  | addSymlink path link metadata => exact addSymlink_effect b path link metadata
  | upsertDir path metadata => exact upsertDir_effect b path metadata
  | addLink path target metadata => exact .link

end ProgramExplorer.ErofsCalls
