-- The conversion of a list of passwords into chunks. A chunk is what fits the
-- memory, sorted by hash, under a name that is not taken.
import Pwned.Library.FileSystem
import Pwned.Library.Fuel
import Pwned.PasswordHashAndCount
import Pwned.UserPasswordReader

namespace pwned

/-- A path as its bytes. -/
abbrev Path := List UInt8

structure ConvertOperation where
  srcFilePath : Path
  dstPath : Path
  outputExt : List UInt8
  maxMem : BitVec 64
  options : List UserPasswordReaderOptions
  inputFile : TextStream
deriving DecidableEq, Repr

namespace ConvertOperation

/-! ## The names of the chunks -/

/-- `fs::path::stem`: the file name up to its last dot. -/
def stem (path : Path) : List UInt8 :=
  let filename := (path.splitOn 47).getLast?.getD []
  if filename.contains 46 then filename.take (filename.length - 1 - filename.reverse.idxOf 46)
  else filename

/-- `dir / file` -/
def join (dir file : Path) : Path :=
  if dir.isEmpty ∨ dir.getLast? = some 47 then dir ++ file else dir ++ 47 :: file

/-- `string_format("-%04x", n)` -/
def formatHex (n : Nat) : List UInt8 :=
  let digits := (Nat.digits 16 n).reverse.map Hash.hexDigit
  45 :: (List.replicate (4 - digits.length) 48 ++ digits)

def generatedOutputFilename (d : ConvertOperation) (splitFileNum : Nat) : Path :=
  join d.dstPath (stem d.srcFilePath ++ formatHex splitFileNum)

/-- The first name that is tried. -/
def firstName (d : ConvertOperation) (splitFileNum : Nat) : Path :=
  d.generatedOutputFilename splitFileNum ++ d.outputExt

/-- The name that is tried for the number `n`. -/
def numberedName (d : ConvertOperation) (splitFileNum n : Nat) : Path :=
  d.generatedOutputFilename splitFileNum ++ formatHex n ++ d.outputExt

/-- The loop over the names while the last one is taken, `turns` times at most. -/
def searchName (d : ConvertOperation) (taken : Path → Bool) (splitFileNum : Nat) :
    (turns n : Nat) → (dstFilePath : Path) → Path
  | 0, _, dstFilePath => dstFilePath
  | turns + 1, n, dstFilePath =>
    if taken dstFilePath then
      searchName d taken splitFileNum turns (n + 1) (d.numberedName splitFileNum n)
    else dstFilePath

def outputName (d : ConvertOperation) (taken : Path → Bool) (splitFileNum : Nat) : Path :=
  d.searchName taken splitFileNum (10000 - splitFileNum) splitFileNum (d.firstName splitFileNum)

/-! ## The chunks -/

/-- What is known of a chunk when it is written. -/
structure Chunk where
  path : Path
  /-- There was a file at the path already. -/
  existed : Bool
  /-- The path could be opened. -/
  opened : Bool
  passwordList : List PasswordHashAndCount
deriving DecidableEq, Repr

/-- The variables of `execute`, with the chunks that were written so far. -/
structure Converting where
  reader : UserPasswordReader
  fs : FileSystem Path
  splitFileNum : Nat := 0
  memUsage : BitVec 64 := 0
  passwordCountSet : List (Hash × BitVec 32) := []
  chunks : List Chunk := []

/-- `memUsagePerEntry`: a hash of 24 bytes, a count of 4, an entry of 32 and an overhead of 8. -/
def memUsagePerEntry : BitVec 64 := 68

/-- `passwordCountSet[hash] += 1` on the map ordered by `HashLess`. -/
def addOne (hash : Hash) : List (Hash × BitVec 32) → List (Hash × BitVec 32)
  | [] => [(hash, 1)]
  | (h, count) :: rest =>
    if hash.lt h then (hash, 1) :: (h, count) :: rest
    else if h.lt hash then (h, count) :: addOne hash rest
    else (h, count + 1) :: rest

/-- The sorted entries of the map. -/
def passwordList (set : List (Hash × BitVec 32)) : List PasswordHashAndCount :=
  (set.map fun i => { hash := i.1, count := i.2 }).mergeSort fun lhs rhs => !rhs.hash.lt lhs.hash

section Execute

variable (md5 : List UInt8 → Vector UInt8 16) (d : ConvertOperation)

/-- One turn of the inner loop. -/
def countLine (s : Converting) : Converting :=
  let (hash, reader) := s.reader.nextPasswordHash md5
  { s with
    reader,
    passwordCountSet := if hash.isValid then addOne hash s.passwordCountSet else s.passwordCountSet,
    memUsage := s.memUsage + memUsagePerEntry }

/-- The chunk that the map makes. -/
def writeChunk (s : Converting) : Converting :=
  if s.passwordCountSet.isEmpty then s
  else
    let passwordList := passwordList s.passwordCountSet
    let dstFilePath := d.outputName s.fs.fileExists s.splitFileNum
    let chunk : Chunk :=
      { path := dstFilePath, existed := s.fs.fileExists dstFilePath,
        opened := s.fs.writable dstFilePath, passwordList }
    let fs :=
      if s.fs.writable dstFilePath then
        (s.fs.create dstFilePath).append dstFilePath
          (passwordList.flatMap PasswordHashAndCount.dump)
      else s.fs
    { s with fs, chunks := s.chunks ++ [chunk] }

/-- The start of a turn of the outer loop. -/
def nextChunk (s : Converting) : Converting :=
  { s with memUsage := 0, splitFileNum := s.splitFileNum + 1, passwordCountSet := [] }

/-- One turn of the two loops: a line is counted, or the chunk is written and the next one
begins. -/
def turn (s : Converting) : Converting ⊕ Converting :=
  if !s.reader.eof && !s.reader.bad && decide (s.memUsage < d.maxMem) then .inl (countLine md5 s)
  else
    let s := writeChunk d s
    if s.reader.eof then .inr s else .inl (nextChunk s)

/-- `execute`, neither cancelled nor paused. -/
def execute (fuel : Nat) (fs : FileSystem Path) : Option Converting :=
  let s : Converting := { reader := UserPasswordReader.create d.inputFile d.options, fs }
  if s.reader.eof then some s else loop (turn md5 d) fuel (nextChunk s)

end Execute

end ConvertOperation

end pwned
