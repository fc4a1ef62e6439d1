import ProgramExplorer.ByteStore

/-!
# Files behind names

A directory gives names to files, and a file that is open stays the same file
when its name changes or is taken away.
-/

set_option autoImplicit false

namespace ProgramExplorer.FileSystem
open ByteStrings

variable {Name : Type}

structure Fs (Name : Type) where
  entries : Name → Option ℕ
  contents : ℕ → Bytes
  next : ℕ

def Fs.read (fs : Fs Name) (name : Name) : Option Bytes := (fs.entries name).map fs.contents

def Fs.put (fs : Fs Name) (inode : ℕ) (bs : Bytes) : Fs Name :=
  { fs with contents := Function.update fs.contents inode bs }

@[simp] theorem put_entries (fs : Fs Name) (inode : ℕ) (bs : Bytes) :
    (fs.put inode bs).entries = fs.entries := rfl

@[simp] theorem put_contents (fs : Fs Name) (inode : ℕ) (bs : Bytes) :
    (fs.put inode bs).contents inode = bs := Function.update_self ..

theorem read_of_entry {fs : Fs Name} {name : Name} {inode : ℕ} (h : fs.entries name = some inode) :
    fs.read name = some (fs.contents inode) := by
  rw [Fs.read, h, Option.map_some]

variable [DecidableEq Name]

/-- Opens a file to write, created if it is not there and emptied if it is. -/
def Fs.create (fs : Fs Name) (name : Name) : ℕ × Fs Name :=
  match fs.entries name with
  | some inode => (inode, fs.put inode [])
  | none => (fs.next,
      { entries := Function.update fs.entries name (some fs.next)
        contents := Function.update fs.contents fs.next []
        next := fs.next + 1 })

def Fs.rename (fs : Fs Name) (a b : Name) : Option (Fs Name) :=
  (fs.entries a).map fun inode =>
    { fs with entries := Function.update (Function.update fs.entries a none) b (some inode) }

def Fs.unlink (fs : Fs Name) (a : Name) : Option (Fs Name) :=
  (fs.entries a).map fun _ => { fs with entries := Function.update fs.entries a none }

theorem create_spec (fs : Fs Name) (name : Name) :
    (fs.create name).2.entries name = some (fs.create name).1 ∧
      (fs.create name).2.contents (fs.create name).1 = [] := by
  unfold Fs.create
  cases h : fs.entries name with
  | some inode => simp [h]
  | none => simp

theorem rename_eq_some {fs fs' : Fs Name} {a b : Name} {inode : ℕ} (ha : fs.entries a = some inode)
    (h : fs.rename a b = some fs') :
    fs'.entries b = some inode ∧ fs'.contents = fs.contents := by
  rw [Fs.rename, ha, Option.map_some] at h
  cases h
  simp

end ProgramExplorer.FileSystem
