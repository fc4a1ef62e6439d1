import ProgramExplorer.Utf8

/-!
# Keys of the blob cache

A key is a digest with its algorithm, `sha256:…`, and stands for a file two
levels below the cache directory. The temporary file of a key is the file of
another key.
-/

set_option autoImplicit false

namespace ProgramExplorer.BlobKeys
open ByteStrings

def splitOnce (c : Char) : List Char → Option (List Char × List Char)
  | [] => none
  | x :: xs => if x = c then some ([], xs) else (splitOnce c xs).map fun p => (x :: p.1, p.2)

theorem splitOnce_append {c : Char} {l : List Char} (hl : c ∉ l) (r : List Char) :
    splitOnce c (l ++ c :: r) = some (l, r) := by
  induction l with
  | nil => simp [splitOnce]
  | cons x l ih =>
    have hx : x ≠ c := fun h => hl (h ▸ List.mem_cons_self)
    have hl' : c ∉ l := fun h => hl (List.mem_cons_of_mem _ h)
    simp [splitOnce, hx, ih hl']

theorem splitOnce_eq_some {c : Char} {s l r : List Char} (h : splitOnce c s = some (l, r)) :
    s = l ++ c :: r ∧ c ∉ l := by
  induction s generalizing l with
  | nil => cases h
  | cons x xs ih =>
    rw [splitOnce] at h
    split_ifs at h with hx
    · cases h
      simp [hx]
    · obtain ⟨⟨l', r'⟩, hrest, heq⟩ := Option.map_eq_some_iff.mp h
      obtain ⟨rfl, rfl⟩ := Prod.mk.inj heq
      obtain ⟨hxs, hnot⟩ := ih hrest
      refine ⟨by rw [hxs, List.cons_append], ?_⟩
      rw [List.mem_cons, not_or]
      exact ⟨Ne.symm hx, hnot⟩

def Accepted (s : List Char) : Prop :=
  '.' ∉ s ∧ '/' ∉ s ∧ ∃ p, splitOnce ':' s = some p ∧ p.1 ≠ [] ∧ p.2 ≠ []

instance (s : List Char) : Decidable (Accepted s) :=
  decidable_of_iff ('.' ∉ s ∧ '/' ∉ s ∧ (splitOnce ':' s).any fun p => p.1 ≠ [] ∧ p.2 ≠ []) <| by
    simp [Accepted, Option.any_eq_true]

structure BlobKey where
  text : List Char
  accepted : Accepted text
  deriving DecidableEq

def BlobKey.new (s : List Char) : Option BlobKey :=
  if h : Accepted s then some ⟨s, h⟩ else none

def tmpSuffix : List Char := ['_', 't', 'm', 'p']

theorem accepted_append {s suffix : List Char} (h : Accepted s) (hsuffix : '.' ∉ suffix ∧ '/' ∉ suffix) :
    Accepted (s ++ suffix) := by
  obtain ⟨hdot, hslash, ⟨l, r⟩, hsplit, hl, hr⟩ := h
  obtain ⟨rfl, hcolon⟩ := splitOnce_eq_some hsplit
  refine ⟨by simp_all, by simp_all, (l, r ++ suffix), ?_, hl, by simp_all⟩
  rw [List.append_assoc, List.cons_append, splitOnce_append hcolon]

def BlobKey.withTmpSuffix (key : BlobKey) : BlobKey :=
  ⟨key.text ++ tmpSuffix, accepted_append key.accepted (by decide)⟩

def BlobKey.parts (key : BlobKey) : List Char × List Char := (splitOnce ':' key.text).getD ([], [])

def replaceFirst (a b : Char) : List Char → List Char
  | [] => []
  | x :: xs => if x = a then b :: xs else x :: replaceFirst a b xs

def BlobKey.asPath (key : BlobKey) : List Char := replaceFirst ':' '/' key.text

def BlobKey.fromCstrParts (a b : Bytes) : Option BlobKey := do
  let a ← Utf8.decode a
  let b ← Utf8.decode b
  BlobKey.new (a ++ ':' :: b)

end ProgramExplorer.BlobKeys
