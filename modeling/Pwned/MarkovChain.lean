-- The Markov chain over the symbols of the passwords: training, the
-- probabilities of words, and the binary file.
import Pwned.Library.Reader
import Pwned.Library.UnorderedMap

namespace pwned.markov

/-- What the standard leaves open: the order of the entries of a hash map, and the order of
elements that the comparison of a sort does not tell apart. -/
structure Unspecified (S P : Type) where
  order : UnorderedMap.Order S
  sort : (S × P → S × P → Bool) → List (S × P) → List (S × P)
  sort_perm : ∀ less l, (sort less l).Perm l

/-- `CountType` -/
abbrev Count := BitVec 64

structure Node (S P : Type) where
  mProbs : UnorderedMap S P := ∅
  mCounts : UnorderedMap S Count := ∅
  mSortedProbs : List (S × P) := []

structure Chain (S P : Type) where
  mNodes : UnorderedMap S (Node S P) := ∅
  mFirstSymbolCounts : UnorderedMap S Count := ∅
  mFirstSymbolProbs : UnorderedMap S P := ∅
  mFirstSymbolSortedProbs : List (S × P) := []

/-- The sum of the counts. The accumulator is an `unsigned int`. -/
def sumCounts {S : Type} (counts : List (S × Count)) : Count :=
  (counts.foldl (fun (a : BitVec 32) b => (b.2 + a.setWidth 64).setWidth 32) 0).setWidth 64

section Model

variable {S P : Type} [DecidableEq S] [NatCast P] [Div P] [LT P] [DecidableLT P]

def probLess (a b : S × P) : Bool := decide (a.2 < b.2)

/-- The probability of a count. -/
def probOf (count sum : Count) : P := (count.toNat : P) / (sum.toNat : P)

/-- `++counts[c]` -/
def increment (counts : UnorderedMap S Count) (c : S) : UnorderedMap S Count :=
  counts.insert c ((counts.lookup c).getD 0 + 1)

/-- The probabilities that `update` assigns for the counts. -/
def assignProbs (u : Unspecified S P) (counts : UnorderedMap S Count) (probs : UnorderedMap S P) :
    UnorderedMap S P :=
  let entries := u.order.iterate counts
  probs.insertAll (entries.map fun p => (p.1, probOf p.2 (sumCounts entries)))

/-- A copy of the probabilities, sorted. -/
def sorted (u : Unspecified S P) (probs : UnorderedMap S P) : List (S × P) :=
  u.sort probLess (u.order.iterate probs)

namespace Node

def postprocess (u : Unspecified S P) (node : Node S P) : Node S P :=
  { node with mSortedProbs := sorted u node.mProbs }

def update (u : Unspecified S P) (node : Node S P) : Node S P :=
  { node with mProbs := assignProbs u node.mCounts node.mProbs }.postprocess u

/-- `mProbs.at(c)`, which throws where there is no such successor. -/
def probability (node : Node S P) (c : S) : Option P := node.mProbs.lookup c

def addSuccessor (node : Node S P) (c : S) (probability : P) : Node S P :=
  { node with mProbs := node.mProbs.insert c probability }

end Node

namespace Chain

def update (u : Unspecified S P) (chain : Chain S P) : Chain S P :=
  let probs := assignProbs u chain.mFirstSymbolCounts chain.mFirstSymbolProbs
  { chain with
    mFirstSymbolProbs := probs,
    mFirstSymbolSortedProbs := sorted u probs,
    mNodes := chain.mNodes.mapValues (Node.update u) }

def addFirst (chain : Chain S P) (symbol : S) : Chain S P :=
  let counts := chain.mFirstSymbolCounts.emplace symbol 0
  { chain with mFirstSymbolCounts := increment counts symbol }

def addPair (chain : Chain S P) (current successor : S) : Chain S P :=
  let nodes := chain.mNodes.emplace current {}
  let node := (nodes.lookup current).getD {}
  let node := { node with mCounts := increment node.mCounts successor }
  { chain with mNodes := nodes.insert current node }

/-- The loop of `train` over the pairs of neighbours. -/
def addPairs (chain : Chain S P) : List S → Chain S P
  | a :: b :: rest => addPairs (chain.addPair a b) (b :: rest)
  | _ => chain

/-- `train`, from the symbols that a password is converted to. -/
def train (chain : Chain S P) : List S → Bool × Chain S P
  | [] => (false, chain)
  | a :: rest => (true, (chain.addFirst a).addPairs (a :: rest))

/-- The chain trained on the passwords and then updated. -/
def trained (u : Unspecified S P) (pwds : List (List S)) : Chain S P :=
  (pwds.foldl (fun (chain : Chain S P) pwd => (chain.train pwd).2) {}).update u

/-! ## The probability of a word -/

/-- The loop of `totalProbability`. -/
def follow [Zero P] [Mul P] (chain : Chain S P) : Option (Node S P) → P → List S → Option P
  | _, p, [] => some p
  | none, _, _ :: _ => some 0
  | some node, p, c :: rest => do
    let q ← node.probability c
    follow chain (chain.mNodes.lookup c) (p * q) rest

/-- The probability, or none where `at` throws. -/
def totalProbability [Zero P] [One P] [Neg P] [Mul P] (chain : Chain S P) : List S → Option P
  | [] => some (-1)
  | s :: rest =>
    match chain.mFirstSymbolSortedProbs.find? (fun p => p.1 == s) with
    | none => some 0
    | some first => chain.follow (chain.mNodes.lookup first.1) first.2 rest

/-! ## The file -/

inductive ErrCode
  | OK
  | BAD_HEADER
  | BAD_HEADER_PREMATURE_EOF
  | BAD_VERSION
  | BAD_VERSION_PREMATURE_EOF
  | BAD_SYMBOL_COUNT
  | BAD_SYMBOL_COUNT_PREMATURE_EOF
  | BAD_SYMBOL
  | BAD_SYMBOL_PREMATURE_EOF
  | BAD_PROBABILITY
  | BAD_PROBABILITY_PREMATURE_EOF
  | BAD_NODE_COUNT
  | BAD_NODE_COUNT_PREMATURE_EOF
deriving DecidableEq, Repr

/-- `MRKV` -/
def FileHeader : List UInt8 := [77, 82, 75, 86]

def FileVersion : BitVec 8 := 2

variable [Stored S 4] [Stored P 8]

/-- A symbol and its probability. -/
def writeProb (p : S × P) : List UInt8 := Stored.encode p.1 ++ Stored.encode p.2

/-- A size, cast to `uint32_t`. -/
def writeSize (n : Nat) : List UInt8 := Stored.encode (BitVec.ofNat 32 n)

def writeNode (entry : S × Node S P) : List UInt8 :=
  Stored.encode entry.1 ++ (writeSize entry.2.mSortedProbs.length ++
    entry.2.mSortedProbs.flatMap writeProb)

/-- The bytes written. -/
def saveBinary (u : Unspecified S P) (chain : Chain S P) : List UInt8 :=
  if chain.mNodes.entries.isEmpty then []
  else
    FileHeader ++ (Stored.encode FileVersion ++
      (writeSize chain.mFirstSymbolSortedProbs.length ++
        (chain.mFirstSymbolSortedProbs.flatMap writeProb ++
          (writeSize chain.mNodes.entries.length ++
            (u.order.iterate chain.mNodes).flatMap writeNode))))

/-- One turn of the loop over the first symbols. -/
def readFirstSymbol : Reader ErrCode (Chain S P) Unit := do
  let c ← Reader.field S .BAD_SYMBOL_PREMATURE_EOF
  let p ← Reader.field P .BAD_PROBABILITY_PREMATURE_EOF
  Reader.modify fun chain =>
    { chain with mFirstSymbolSortedProbs := chain.mFirstSymbolSortedProbs ++ [(c, p)] }

/-- One turn of the loop over the successors of the node of `c`. -/
def readSuccessor (c : S) : Reader ErrCode (Chain S P) Unit := do
  let symbol ← Reader.field S .BAD_SYMBOL_PREMATURE_EOF
  let probability ← Reader.field P .BAD_PROBABILITY_PREMATURE_EOF
  Reader.modify fun chain =>
    let node := (chain.mNodes.lookup c).getD {}
    { chain with mNodes := chain.mNodes.insert c (node.addSuccessor symbol probability) }

/-- One turn of the loop over the nodes. -/
def readNode : Reader ErrCode (Chain S P) Unit := do
  let c ← Reader.field S .BAD_SYMBOL_PREMATURE_EOF
  let chain ← Reader.state
  if c ∈ chain.mNodes then throw .BAD_SYMBOL
  Reader.modify fun chain => { chain with mNodes := chain.mNodes.insert c {} }
  let nodeCount ← Reader.field (BitVec 32) .BAD_NODE_COUNT_PREMATURE_EOF
  Reader.times (readSuccessor c) nodeCount.toNat

/-- The part of `loadBinary` that reads a good stream. -/
def readChain : Reader ErrCode (Chain S P) Unit := do
  let hdr ← Reader.readBytes 4 .BAD_HEADER_PREMATURE_EOF
  if hdr ≠ FileHeader then throw .BAD_HEADER
  let version ← Reader.field (BitVec 8) .BAD_VERSION_PREMATURE_EOF
  if version ≠ FileVersion then throw .BAD_VERSION
  let firstSymbolCount ← Reader.field (BitVec 32) .BAD_SYMBOL_COUNT_PREMATURE_EOF
  Reader.times readFirstSymbol firstSymbolCount.toNat
  let symbolCount ← Reader.field (BitVec 32) .BAD_SYMBOL_COUNT_PREMATURE_EOF
  Reader.times readNode symbolCount.toNat

/-- The error code, and the chain and the stream that the call leaves. -/
def loadBinary (u : Unspecified S P) (chain : Chain S P) (is : InputStream) (doClear : Bool) :
    ErrCode × Chain S P × InputStream :=
  let chain := if doClear then {} else chain
  let (result, is, chain) :=
    if is.good && !is.eofbit then readChain is chain else (.ok (), is, chain)
  match result with
  | .error ec => (ec, chain, is)
  | .ok () => (.OK, { chain with mNodes := chain.mNodes.mapValues (Node.postprocess u) }, is)

end Chain

end Model

end pwned.markov
