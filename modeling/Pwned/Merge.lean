-- The merge of several MD5:count files into one.
import Pwned.Library.Fuel
import Pwned.Library.FileSystem
import Pwned.Library.PriorityQueue
import Pwned.PasswordHashAndCount

open pwned

namespace merger

/-- An open input file. The queue holds pointers to the inputs; `addr` tells them apart. -/
structure MergerInput (Path : Type) where
  addr : Nat
  path : Path
  phc : PasswordHashAndCount := {}
  isValid : Bool := false
  f : InputStream
deriving DecidableEq

namespace MergerInput

variable {Path : Type}

def read (m : MergerInput Path) : MergerInput Path :=
  let (isValid, phc, f) := m.phc.read m.f
  { m with isValid, phc, f }

/-- `open()` on a file that exists. -/
def openInput (addr : Nat) (path : Path) (content : List UInt8) : MergerInput Path :=
  read { addr, path, f := { content } }

/-- The number that `SmallestHashFirst` compares. -/
def key (m : MergerInput Path) : Nat := m.phc.hash.key

end MergerInput

inductive MergerError where
  | noData | cannotWriteToFile | cancelled
deriving DecidableEq, Repr

structure MergeOperation (Path : Type) where
  pq : List (MergerInput Path)
  dstFilePath : Path
  entriesProcessed : BitVec 64 := 0
  removeInputFilesAfterMerge : Bool
  totalEntries : BitVec 64

/-- The variables of the loop of `execute`. `progressed` holds the calls of the callback, and
nothing where there is no callback. -/
structure Merging (Path : Type) where
  d : MergeOperation Path
  fs : FileSystem Path
  current : PasswordHashAndCount
  progressed : Option (List (BitVec 64))

section Merge

variable {Path : Type} [DecidableEq Path] (Q : PriorityQueue (@MergerInput.key Path))

/-- `MergeOperationPrivate`, for the source files from number `addr` on. The size of a file that
does not exist throws. -/
def openAll (fs : FileSystem Path) :
    List Path → Nat → List (MergerInput Path) → BitVec 64 →
      Option (List (MergerInput Path) × BitVec 64)
  | [], _, pq, sum => some (pq, sum)
  | path :: srcFiles, addr, pq, sum => do
    let content ← fs.files path
    let mi := MergerInput.openInput addr path content
    openAll fs srcFiles (addr + 1) (Q.push mi pq) (sum + BitVec.ofNat 64 content.length)

def MergeOperation.create (fs : FileSystem Path) (srcFiles : List Path) (dstFilename : Path)
    (removeInputFilesAfterMerge : Bool) : Option (MergeOperation Path) := do
  let (pq, sum) ← openAll Q fs srcFiles 0 [] 0
  some { pq, dstFilePath := dstFilename, removeInputFilesAfterMerge,
         totalEntries := sum / BitVec.ofNat 64 PasswordHashAndCount.size }

/-- `next`, with what it makes of the operation and of the files. -/
def next (d : MergeOperation Path) (fs : FileSystem Path) :
    PasswordHashAndCount × MergeOperation Path × FileSystem Path :=
  match d.pq with
  | [] => ({}, d, fs)
  | mergerInput :: rest =>
    let result := mergerInput.phc
    if mergerInput.isValid then
      let mergerInput := mergerInput.read
      if mergerInput.isValid then
        (result, { d with pq := Q.push mergerInput (Q.pop rest) }, fs)
      else (result, { d with pq := mergerInput :: rest }, fs)
    else
      let d := { d with pq := Q.pop rest }
      let fs := if d.removeInputFilesAfterMerge then fs.remove mergerInput.path else fs
      if d.pq.isEmpty then ({}, d, fs) else (result, d, fs)

/-- What the loop does with an entry: it is added to the running one, or the running one is
written and it takes its place. -/
def Merging.add (s : Merging Path) (p : PasswordHashAndCount) : Merging Path :=
  if s.current.hash.eq p.hash then
    { s with current := { s.current with count := s.current.count + p.count } }
  else { s with fs := s.fs.append s.d.dstFilePath s.current.dump, current := p }

/-- One turn of the loop of `execute`. -/
def turn (s : Merging Path) : Merging Path ⊕ Merging Path :=
  let updateAfterEntries := max (s.d.totalEntries.toNat / 1000) 1
  let (p, d, fs) := next Q s.d s.fs
  if d.pq.isEmpty then
    .inr { s with d, fs := fs.append d.dstFilePath s.current.dump }
  else
    let progressed :=
      if d.entriesProcessed.toNat % updateAfterEntries = 0 then
        s.progressed.map (· ++ [d.entriesProcessed])
      else s.progressed
    let d := { d with entriesProcessed := d.entriesProcessed + 1 }
    .inl (Merging.add { s with d, fs, progressed } p)

/-- What stands before the loop of `execute`. An operation without inputs ends here. -/
def start (d : MergeOperation Path) (fs : FileSystem Path)
    (progressed : Option (List (BitVec 64))) : Except MergerError (Option (Merging Path)) :=
  match d.pq with
  | [] => .ok none
  | top :: _ =>
    if fs.writable d.dstFilePath then
      .ok (some { d, fs := fs.create d.dstFilePath, current := top.phc, progressed })
    else .error .cannotWriteToFile

/-- What stands behind the loop of `execute`. -/
def finish (s : Merging Path) : FileSystem Path × Option (List (BitVec 64)) :=
  (s.fs, s.progressed.map (· ++ [s.d.entriesProcessed]))

/-- `execute`, neither cancelled nor paused. -/
def execute (fuel : Nat) (d : MergeOperation Path) (fs : FileSystem Path)
    (progressed : Option (List (BitVec 64))) :
    Option (Except MergerError (FileSystem Path × Option (List (BitVec 64)))) :=
  match start d fs progressed with
  | .error e => some (.error e)
  | .ok none => some (.ok (fs, progressed))
  | .ok (some s) => (loop (turn Q) fuel s).map fun s => .ok (finish s)

end Merge

end merger
