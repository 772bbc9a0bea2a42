-- The lookup of a hash in a database file by binary search, without and with
-- an index file.
import Pwned.Library.Fuel
import Pwned.Database
import Pwned.Util

open LittleEndian

namespace pwned

/-- The open files of a `PasswordInspector`. There is no index file when it was opened
without one. -/
structure PasswordInspector where
  mInputFile : InputStream
  mIndexFile : Option InputStream
  mFileSize : Int
  mShift : Nat
deriving DecidableEq, Repr

namespace PasswordInspector

/-- `sizeof(index_key_t)` -/
def indexKeySize : Nat := 8

/-- `open(filename)` -/
def openFile (file : List UInt8) : PasswordInspector :=
  { mInputFile := { content := file }, mIndexFile := none, mFileSize := file.length, mShift := 0 }

/-- `open(inputFilename, indexFilename)` with an index file. -/
def openIndexed (file index : List UInt8) : PasswordInspector :=
  let nKeys := BitVec.ofNat 64 (index.length / indexKeySize)
  { openFile file with
    mIndexFile := some { content := index },
    mShift := indexKeySize * 8 - popcnt64 (nKeys - 1) }

/-- The number of records in the file. -/
def size (ins : PasswordInspector) : Nat := ins.mFileSize.toNat / PasswordHashAndCount.size

/-- One of the two probe loops, which differ only in the step to the next entry. A read that
fails leaves the variable as it was. -/
def probe (step : Int) : Nat → InputStream → Int → BitVec 64 → Nat →
    Option (BitVec 64 × Nat × InputStream)
  | 0, _, _, _, _ => none
  | fuel + 1, f, idx, var, nReads =>
    let (bs, f) := (f.seekg idx).read indexKeySize
    let var := BitVec.ofNat 64 (value (overwrite (bytes 8 var.toNat) bs))
    if var.toInt = -1 then probe step fuel f (idx + step) var (nReads + 1)
    else some (var, nReads + 1, f)

/-- The position of the record in the middle of `lo` and `hi`. -/
def middle (lo hi : Int) : Int :=
  let pos := (lo % 2 ^ 64 + hi % 2 ^ 64) % 2 ^ 64 / 2
  max 0 (pos - pos.tmod PasswordHashAndCount.size)

/-- The loop of `binsearch` between the inclusive bounds `lo` and `hi`. -/
def search (hash : Hash) : Nat → InputStream → PasswordHashAndCount → Int → Int → Nat →
    Option (PasswordHashAndCount × Nat × InputStream)
  | 0, _, _, _, _, _ => none
  | fuel + 1, f, phc, lo, hi, nReads =>
    if lo ≤ hi then
      let pos := middle lo hi
      let (_, phc, f) := phc.readAt f pos
      if hash.gt phc.hash then
        search hash fuel f phc (pos + PasswordHashAndCount.size) hi (nReads + 1)
      else if hash.lt phc.hash then
        search hash fuel f phc lo (pos - PasswordHashAndCount.size) (nReads + 1)
      else some (phc, nReads + 1, f)
    else some ({ phc with count := 0 }, nReads, f)

/-- `idx`, the offset of the entry of the hash. -/
def entryOffset (hash : Hash) (shift : Nat) : Int :=
  let hashMSB := hash.upper >>> shift
  (hashMSB * BitVec.ofNat 64 indexKeySize).toInt

/-- The bounds that the index gives: the two probe loops, one after the other. -/
def bounds (index : InputStream) (hash : Hash) (shift : Nat) (fileSize : Int) (fuel : Nat) :
    Option (Int × Int × Nat × InputStream) := do
  let idx := entryOffset hash shift
  let (lo, nReads, index) ← probe (-indexKeySize) fuel index idx 0 0
  let (hi, nReads, index) ←
    probe indexKeySize fuel index (idx + indexKeySize) (BitVec.ofInt 64 fileSize) nReads
  some (lo.toInt, hi.toInt, nReads, index)

/-- `binsearch`, with the number of reads and the inspector it leaves behind. -/
def binsearch (fuel : Nat) (ins : PasswordInspector) (hash : Hash) :
    Option (PasswordHashAndCount × Nat × PasswordInspector) :=
  match ins.mIndexFile with
  | none =>
    (search hash fuel ins.mInputFile {} 0 ins.mFileSize 0).map fun (phc, nReads, f) =>
      (phc, nReads, { ins with mInputFile := f })
  | some index => do
    let (lo, hi, nReads, index) ← bounds index hash ins.mShift ins.mFileSize fuel
    let (phc, nReads, f) ← search hash fuel ins.mInputFile {} lo hi nReads
    some (phc, nReads, { ins with mInputFile := f, mIndexFile := some index })

/-- The lookups of a list of hashes on one inspector, in order. -/
def lookups (fuel : Nat) (ins : PasswordInspector) : List Hash → Option PasswordInspector
  | [] => some ins
  | hash :: rest => do
    let (_, _, ins) ← ins.binsearch fuel hash
    lookups fuel ins rest

end PasswordInspector

end pwned
