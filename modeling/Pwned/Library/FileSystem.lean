-- The files of a machine: what each path holds, and which paths can be opened
-- for writing.
import Mathlib

structure FileSystem (Path : Type) where
  files : Path → Option (List UInt8)
  writable : Path → Bool

namespace FileSystem

variable {Path : Type} [DecidableEq Path]

def fileExists (fs : FileSystem Path) (p : Path) : Bool := (fs.files p).isSome

/-- Opening for writing leaves an empty file. -/
def create (fs : FileSystem Path) (p : Path) : FileSystem Path :=
  { fs with files := fun q => if q = p then some [] else fs.files q }

/-- What is written through an open stream goes behind what the file holds. -/
def append (fs : FileSystem Path) (p : Path) (bs : List UInt8) : FileSystem Path :=
  { fs with files := fun q => if q = p then (fs.files p).map (· ++ bs) else fs.files q }

def remove (fs : FileSystem Path) (p : Path) : FileSystem Path :=
  { fs with files := fun q => if q = p then none else fs.files q }

variable (fs : FileSystem Path) (p : Path)

@[simp] theorem create_files : (fs.create p).files p = some [] := by simp [create]

@[simp] theorem append_files (bs : List UInt8) :
    (fs.append p bs).files p = (fs.files p).map (· ++ bs) := by simp [append]

theorem create_files_of_ne {q : Path} (h : q ≠ p) : (fs.create p).files q = fs.files q := by
  simp [create, h]

theorem append_files_of_ne {q : Path} (h : q ≠ p) (bs : List UInt8) :
    (fs.append p bs).files q = fs.files q := by
  simp [append, h]

theorem remove_files_of_ne {q : Path} (h : q ≠ p) : (fs.remove p).files q = fs.files q := by
  simp [remove, h]

end FileSystem
