-- What `loadBinary` accepts: the images of chains, whatever comes after
-- them. A cut anywhere in an image makes a field end early.
import Pwned.MarkovTraining

open UnorderedMap Reader

namespace pwned.markov

variable {S P : Type}

/-- What the file of a chain says. Every count fits its 32 bits, and every node has a symbol of
its own. -/
structure Image (S P : Type) where
  firsts : List (S × P)
  nodes : List (S × List (S × P))
  firsts_lt : firsts.length < 2 ^ 32
  nodes_lt : nodes.length < 2 ^ 32
  successors_lt : ∀ node ∈ nodes, node.2.length < 2 ^ 32
  nodup : (nodes.map Prod.fst).Nodup

section Bytes

variable [Stored S 4] [Stored P 8]

def nodeBytes (node : S × List (S × P)) : List UInt8 :=
  Stored.encode node.1 ++ (Chain.writeSize node.2.length ++ node.2.flatMap Chain.writeProb)

def Image.bytes (image : Image S P) : List UInt8 :=
  Chain.FileHeader ++ (Stored.encode Chain.FileVersion ++
    (Chain.writeSize image.firsts.length ++ (image.firsts.flatMap Chain.writeProb ++
      (Chain.writeSize image.nodes.length ++ image.nodes.flatMap nodeBytes))))

end Bytes

/-- The node has these successors, the last of two for the same symbol. -/
structure Node.Has [DecidableEq S] (successors : List (S × P)) (node : Node S P) : Prop where
  probs : ∀ d, node.probability d = successors.reverse.lookup d
  counts : node.mCounts = ∅
  sorted : node.mSortedProbs.Perm node.mProbs.pairs

/-- The chain has the first symbols and the nodes of the image and no others. -/
structure Chain.Has [DecidableEq S] (image : Image S P) (chain : Chain S P) : Prop where
  firsts : chain.mFirstSymbolSortedProbs = image.firsts
  nodes : ∀ c, c ∈ chain.mNodes ↔ c ∈ image.nodes.map Prod.fst
  successors : ∀ e ∈ image.nodes, ∀ node, chain.mNodes.lookup e.1 = some node → node.Has e.2

namespace Chain

/-! ## What reading consumes -/

theorem consumes_size {ε : Type} {n : Nat} (h : n < 2 ^ 32) (eof : ε) (s : Chain S P) :
    Consumes (field (BitVec 32) eof) (writeSize n) (BitVec.ofNat 32 n) s s ∧
      (BitVec.ofNat 32 n).toNat = n :=
  ⟨Consumes.field _ eof s, by rw [BitVec.toNat_ofNat, Nat.mod_eq_of_lt h]⟩

section Consumed

variable [Stored S 4] [Stored P 8]

theorem consumes_firstSymbol (p : S × P) (s : Chain S P) :
    Consumes readFirstSymbol (writeProb p) () s
      { s with mFirstSymbolSortedProbs := s.mFirstSymbolSortedProbs ++ [p] } := by
  have h := (Consumes.field p.2 ErrCode.BAD_PROBABILITY_PREMATURE_EOF s).bind
    (f := fun q => Reader.modify fun chain : Chain S P =>
      { chain with mFirstSymbolSortedProbs := chain.mFirstSymbolSortedProbs ++ [(p.1, q)] })
    (Consumes.modify _ s)
  rw [List.append_nil] at h
  exact (Consumes.field p.1 ErrCode.BAD_SYMBOL_PREMATURE_EOF s).bind h

theorem consumes_firstSymbols (l : List (S × P)) :
    ∀ s : Chain S P, Consumes (times readFirstSymbol l.length) (l.flatMap writeProb) () s
      { s with mFirstSymbolSortedProbs := s.mFirstSymbolSortedProbs ++ l } := by
  induction l with
  | nil =>
    intro s
    rw [List.append_nil]
    exact Consumes.pure () s
  | cons p l ih =>
    intro s
    have hsame : s.mFirstSymbolSortedProbs ++ p :: l =
        s.mFirstSymbolSortedProbs ++ [p] ++ l := by simp
    rw [hsame]
    exact (consumes_firstSymbol p s).bind (ih _)

variable [DecidableEq S]

theorem consumes_successor {c : S} {node : Node S P} {m : UnorderedMap S (Node S P)}
    (p : S × P) (s : Chain S P) (hs : s.mNodes = m.insert c node) :
    Consumes (readSuccessor c) (writeProb p) () s
      { s with mNodes := m.insert c (node.addSuccessor p.1 p.2) } := by
  let add := fun (q : P) (chain : Chain S P) =>
    let node := (chain.mNodes.lookup c).getD {}
    { chain with mNodes := chain.mNodes.insert c (node.addSuccessor p.1 q) }
  have hadd : add p.2 s = { s with mNodes := m.insert c (node.addSuccessor p.1 p.2) } := by
    simp only [add, hs, AList.lookup_insert, Option.getD_some, AList.insert_insert]
  have h := (Consumes.field p.2 ErrCode.BAD_PROBABILITY_PREMATURE_EOF s).bind
    (f := fun q => Reader.modify (add q)) (Consumes.modify (add p.2) s)
  rw [List.append_nil, hadd] at h
  exact (Consumes.field p.1 ErrCode.BAD_SYMBOL_PREMATURE_EOF s).bind h

theorem consumes_successors {c : S} {m : UnorderedMap S (Node S P)} (l : List (S × P)) :
    ∀ (node : Node S P) (s : Chain S P), s.mNodes = m.insert c node →
      Consumes (times (readSuccessor c) l.length) (l.flatMap writeProb) () s
        { s with mNodes := m.insert c { node with mProbs := insertAll node.mProbs l } } := by
  induction l with
  | nil =>
    intro node s hs
    have hsame : { s with mNodes := m.insert c node } = s := by rw [← hs]
    rw [insertAll_nil, hsame]
    exact Consumes.pure () s
  | cons p l ih =>
    intro node s hs
    exact (consumes_successor p s hs).bind (ih (node.addSuccessor p.1 p.2) _ rfl)

/-- The node that is built from the sorted successors of a node. -/
def loadedNode (successors : List (S × P)) : Node S P := { mProbs := insertAll ∅ successors }

theorem consumes_node (e : S × List (S × P)) (s : Chain S P) (hnew : e.1 ∉ s.mNodes)
    (hsize : e.2.length < 2 ^ 32) :
    Consumes readNode (nodeBytes e) () s
      { s with mNodes := s.mNodes.insert e.1 (loadedNode e.2) } := by
  obtain ⟨hcount, hn⟩ := consumes_size hsize ErrCode.BAD_NODE_COUNT_PREMATURE_EOF
    { s with mNodes := s.mNodes.insert e.1 {} }
  have hloop := consumes_successors (c := e.1) (m := s.mNodes) e.2 {}
    { s with mNodes := s.mNodes.insert e.1 {} } rfl
  rw [← hn] at hloop
  unfold readNode
  refine (Consumes.field e.1 _ s).bind ((Consumes.state s).bind_nil ?_)
  rw [if_neg hnew]
  exact (Consumes.modify _ s).bind_nil (hcount.bind hloop)

/-- The nodes of an image as they are loaded. -/
def loadedNodes (l : List (S × List (S × P))) : List (S × Node S P) :=
  l.map fun e => (e.1, loadedNode e.2)

theorem consumes_nodes (l : List (S × List (S × P))) :
    ∀ s : Chain S P, (l.map Prod.fst).Nodup → (∀ e ∈ l, e.1 ∉ s.mNodes) →
      (∀ e ∈ l, e.2.length < 2 ^ 32) →
      Consumes (times readNode l.length) (l.flatMap nodeBytes) () s
        { s with mNodes := insertAll s.mNodes (loadedNodes l) } := by
  induction l with
  | nil =>
    intro s _ _ _
    exact Consumes.pure () s
  | cons e l ih =>
    intro s hnd hnew hsize
    rw [List.map_cons, List.nodup_cons] at hnd
    have hnode := consumes_node e s (hnew e (by simp)) (hsize e (by simp))
    refine hnode.bind (ih _ hnd.2 ?_ fun e' he' => hsize e' (List.mem_cons_of_mem e he'))
    intro e' he'
    rw [AList.mem_insert, not_or]
    refine ⟨?_, hnew e' (List.mem_cons_of_mem e he')⟩
    intro heq
    exact hnd.1 (heq ▸ List.mem_map_of_mem he')

/-- What the loops leave when they have read an image. -/
def imageChain (image : Image S P) : Chain S P :=
  { mFirstSymbolSortedProbs := image.firsts, mNodes := insertAll ∅ (loadedNodes image.nodes) }

theorem consumes_image (image : Image S P) :
    Consumes readChain image.bytes () {} (imageChain image) := by
  obtain ⟨hfirsts, hfn⟩ := consumes_size image.firsts_lt ErrCode.BAD_SYMBOL_COUNT_PREMATURE_EOF
    ({} : Chain S P)
  have hfloop := consumes_firstSymbols image.firsts ({} : Chain S P)
  obtain ⟨hnodes, hnn⟩ := consumes_size image.nodes_lt ErrCode.BAD_SYMBOL_COUNT_PREMATURE_EOF
    ({ mFirstSymbolSortedProbs := [] ++ image.firsts } : Chain S P)
  have hnloop := consumes_nodes image.nodes
    ({ mFirstSymbolSortedProbs := [] ++ image.firsts } : Chain S P)
    image.nodup (fun e _ => AList.notMem_empty e.1) image.successors_lt
  rw [← hfn] at hfloop
  rw [← hnn] at hnloop
  unfold readChain Image.bytes
  refine (Consumes.readBytes rfl _ _).bind ?_
  rw [if_neg (by simp)]
  refine (Consumes.field FileVersion _ _).bind ?_
  rw [if_neg (by simp)]
  exact hfirsts.bind (hfloop.bind (hnodes.bind hnloop))

/-- Two images at the front of the same bytes end at the same place. -/
theorem bytes_eq_of_front {a b : Image S P} (h : b.bytes <+: a.bytes) : b.bytes = a.bytes := by
  obtain ⟨tail, htail⟩ := h
  have hopen := InputStream.holds_open a.bytes
  rw [← List.append_nil a.bytes] at hopen
  obtain ⟨is, hrun, hrest⟩ := consumes_image a _ [] hopen
  rw [List.append_nil, ← htail] at hrun
  obtain ⟨is', hrun', hrest'⟩ := consumes_image b _ tail (InputStream.holds_open _)
  rw [hrun, Prod.mk.injEq, Prod.mk.injEq] at hrun'
  rw [← hrun'.2.1] at hrest'
  have hnil : tail = [] := hrest'.rest.symm.trans hrest.rest
  rw [← htail, hnil, List.append_nil]

end Consumed

/-! ## What reading takes -/

theorem writeSize_toNat (n : BitVec 32) : writeSize n.toNat = Stored.encode n := by
  rw [writeSize, BitVec.ofNat_toNat, BitVec.setWidth_eq]

/-- A turn of the loop over the nodes has taken a node with a new symbol. -/
def TookNode [DecidableEq S] [Stored S 4] [Stored P 8] (s : Chain S P) (as : List UInt8)
    (s' : Chain S P) : Prop :=
  ∃ e : S × List (S × P), (e.1 ∉ s.mNodes ∧ e.2.length < 2 ^ 32) ∧ as = nodeBytes e ∧
    s' = { s with mNodes := s.mNodes.insert e.1 (loadedNode e.2) }

/-- The loop over the nodes has taken `n` nodes with different new symbols. -/
def TookNodes [DecidableEq S] [Stored S 4] [Stored P 8] (n : Nat) (s : Chain S P)
    (as : List UInt8) : Prop :=
  ∃ l : List (S × List (S × P)), l.length = n ∧ (l.map Prod.fst).Nodup ∧
    (∀ e ∈ l, e.1 ∉ s.mNodes ∧ e.2.length < 2 ^ 32) ∧ as = l.flatMap nodeBytes

section Taken

variable [Stored S 4] [Stored P 8] [StoredExactly S 4] [StoredExactly P 8]

theorem takes_firstSymbol (s : Chain S P) :
    Takes (· ≠ .OK) readFirstSymbol s fun as _ _ => ∃ p : S × P, as = writeProb p := by
  unfold readFirstSymbol
  refine Takes.bind (Takes.field (by simp) fun c => Takes.bind (Takes.field (by simp) fun p => ?_))
  apply Takes.modify
  exact ⟨(c, p), by simp [writeProb]⟩

theorem takes_firstSymbols (n : Nat) (s : Chain S P) :
    Takes (· ≠ .OK) (times readFirstSymbol n) s fun as _ s' => ∃ l : List (S × P), l.length = n ∧
      as = l.flatMap writeProb ∧
      s' = { s with mFirstSymbolSortedProbs := s.mFirstSymbolSortedProbs ++ l } := by
  apply Takes.of_consumes (Takes.times_flatMap takes_firstSymbol n s)
  rintro l rfl
  exact consumes_firstSymbols l s

variable [DecidableEq S]

theorem takes_successor (c : S) (s : Chain S P) :
    Takes (· ≠ .OK) (readSuccessor c) s fun as _ _ => ∃ p : S × P, as = writeProb p := by
  unfold readSuccessor
  refine Takes.bind (Takes.field (by simp) fun d => Takes.bind (Takes.field (by simp) fun p => ?_))
  apply Takes.modify
  exact ⟨(d, p), by simp [writeProb]⟩

theorem takes_node (s : Chain S P) :
    Takes (· ≠ .OK) readNode s fun as _ => TookNode s as := by
  refine Takes.of_consumes ?_ fun e he => consumes_node e s he.1 he.2
  unfold readNode
  refine Takes.bind (Takes.field (by simp) fun c => Takes.bind (Takes.state ?_))
  split
  · exact Takes.throw (by simp)
  · rename_i hnew
    refine Takes.bind (Takes.modify (Takes.bind (Takes.field (by simp) fun n => ?_)))
    refine (Takes.times_flatMap (takes_successor c) n.toNat _).mono ?_
    rintro as _ s' ⟨l, hl, rfl⟩
    refine ⟨(c, l), ⟨hnew, hl ▸ n.isLt⟩, ?_⟩
    simp [nodeBytes, hl, writeSize_toNat]

theorem takes_nodes (n : Nat) :
    ∀ s : Chain S P, Takes (· ≠ .OK) (times readNode n) s fun as _ _ => TookNodes n s as := by
  refine Takes.times (P := TookNode) (Q := fun n s as _ => TookNodes n s as) takes_node ?_ ?_ n
  · intro s
    exact ⟨[], rfl, List.nodup_nil, by simp, rfl⟩
  · rintro n s s' s'' as bs ⟨e, he, rfl, rfl⟩ ⟨l, rfl, hnd, hl, rfl⟩
    have hnew : ∀ e' ∈ l, e'.1 ≠ e.1 ∧ e'.1 ∉ s.mNodes := by
      intro e' he'
      have h := (hl e' he').1
      rwa [AList.mem_insert, not_or] at h
    refine ⟨e :: l, rfl, ?_, ?_, rfl⟩
    · rw [List.map_cons, List.nodup_cons]
      refine ⟨?_, hnd⟩
      intro hmem
      obtain ⟨e', he', heq⟩ := List.mem_map.mp hmem
      exact (hnew e' he').1 heq
    · rw [List.forall_mem_cons]
      exact ⟨he, fun e' he' => ⟨(hnew e' he').2, (hl e' he').2⟩⟩

/-- What is read as a chain is an image. -/
theorem takes_image :
    Takes (· ≠ .OK) readChain ({} : Chain S P) fun as _ _ =>
      ∃ image : Image S P, as = image.bytes := by
  unfold readChain
  refine Takes.bind (Takes.readBytes (by simp) fun hdr _ => ?_)
  split
  · exact Takes.throw (by simp)
  rename_i hhdr
  refine Takes.bind (Takes.field (by simp) fun version => ?_)
  split
  · exact Takes.throw (by simp)
  rename_i hversion
  refine Takes.bind (Takes.field (by simp) fun n => Takes.bind ?_)
  refine (takes_firstSymbols n.toNat _).mono ?_
  rintro as _ _ ⟨firsts, hfirsts, rfl, rfl⟩
  refine Takes.bind (Takes.field (by simp) fun m => ?_)
  refine (takes_nodes m.toNat _).mono ?_
  rintro as _ _ ⟨nodes, hnodes, hnd, hl, rfl⟩
  refine ⟨⟨firsts, nodes, hfirsts ▸ n.isLt, hnodes ▸ m.isLt, fun e he => (hl e he).2, hnd⟩, ?_⟩
  simp [Image.bytes, hfirsts, hnodes, writeSize_toNat, not_not.mp hhdr, not_not.mp hversion]

end Taken

/-! ## Loading -/

section Load

variable [DecidableEq S] [LT P] [DecidableLT P]

theorem loadBinary_of_good [Stored S 4] [Stored P 8] (u : Unspecified S P) (old : Chain S P)
    {is : InputStream} {bs : List UInt8} (h : is.Holds bs) :
    loadBinary u old is true =
      match readChain is {} with
      | (.error ec, is, chain) => (ec, chain, is)
      | (.ok (), is, chain) =>
        (.OK, { chain with mNodes := chain.mNodes.mapValues (Node.postprocess u) }, is) := by
  have hgood : (is.good && !is.eofbit) = true := by rw [h.good, h.not_eof]; rfl
  unfold loadBinary
  simp only [if_true, hgood]
  rcases readChain is ({} : Chain S P) with ⟨ec | _, is', chain⟩ <;> rfl

theorem loadBinary_image [Stored S 4] [Stored P 8] (u : Unspecified S P) (image : Image S P)
    {is : InputStream} {tail : List UInt8} (h : is.Holds (image.bytes ++ tail))
    (old : Chain S P) :
    ∃ is', loadBinary u old is true =
      (.OK, { imageChain image with
        mNodes := (imageChain image).mNodes.mapValues (Node.postprocess u) }, is') ∧
      is'.Holds tail := by
  obtain ⟨is', hrun, hrest⟩ := consumes_image image is tail h
  refine ⟨is', ?_, hrest⟩
  rw [loadBinary_of_good u old h, hrun]

omit [LT P] [DecidableLT P] in
theorem keys_loadedNodes (l : List (S × List (S × P))) :
    (loadedNodes l).map Prod.fst = l.map Prod.fst := by
  unfold loadedNodes
  rw [List.map_map]
  rfl

theorem has_postprocess (u : Unspecified S P) (l : List (S × P)) :
    ((loadedNode l).postprocess u).Has l := by
  refine ⟨?_, rfl, sorted_perm u _⟩
  intro d
  refine (lookup_insertAll l d ∅).trans ?_
  rw [AList.lookup_empty, Option.or_none]

theorem has_image (u : Unspecified S P) (image : Image S P) :
    Has image { imageChain image with
      mNodes := (imageChain image).mNodes.mapValues (Node.postprocess u) } := by
  have hkeys := keys_loadedNodes image.nodes
  have hlook : ∀ e ∈ image.nodes, (imageChain image).mNodes.lookup e.1 =
      some (loadedNode e.2) := by
    intro e he
    apply lookup_insertAll_of_mem _ ∅ (hkeys ▸ image.nodup)
    exact List.mem_map.mpr ⟨e, he, rfl⟩
  refine ⟨rfl, ?_, ?_⟩
  · intro c
    rw [mem_mapValues, ← hkeys]
    refine (mem_insertAll _ ∅).trans ?_
    exact or_iff_left (AList.notMem_empty c)
  · intro e he node hnode
    rw [lookup_mapValues, hlook e he, Option.map_some, Option.some.injEq] at hnode
    rw [← hnode]
    exact has_postprocess u e.2

variable [Stored S 4] [Stored P 8] [StoredExactly S 4] [StoredExactly P 8]
  (u : Unspecified S P) (old : Chain S P) {is : InputStream} {bs : List UInt8}

theorem image_of_loadBinary (h : is.Holds bs) (hok : (loadBinary u old is true).1 = .OK) :
    ∃ image : Image S P, image.bytes <+: bs := by
  rw [loadBinary_of_good u old h] at hok
  have htakes := takes_image (S := S) (P := P) is bs h
  rcases hrun : readChain is ({} : Chain S P) with ⟨ec | ⟨⟨⟩⟩, is', chain⟩
  · rw [hrun] at hok htakes
    exact absurd hok htakes
  · rw [hrun] at htakes
    obtain ⟨_, rest, rfl, -, image, rfl⟩ := htakes
    exact ⟨image, List.prefix_append _ _⟩

/-- Just the byte strings that begin with an image load. What is loaded is what the image says,
and no image that is cut short loads. -/
theorem images_are_what_loads (h : is.Holds bs) :
    ((loadBinary u old is true).1 = .OK ↔ ∃ image : Image S P, image.bytes <+: bs) ∧
      (∀ image : Image S P, image.bytes <+: bs → Has image (loadBinary u old is true).2.1) ∧
      ∀ image : Image S P, bs <+: image.bytes → bs ≠ image.bytes →
        (loadBinary u old is true).1 ≠ .OK := by
  have hload : ∀ image : Image S P, image.bytes <+: bs →
      (loadBinary u old is true).1 = .OK ∧ Has image (loadBinary u old is true).2.1 := by
    rintro image ⟨tail, rfl⟩
    obtain ⟨is', hrun, -⟩ := loadBinary_image u image h old
    rw [hrun]
    exact ⟨rfl, has_image u image⟩
  refine ⟨⟨image_of_loadBinary u old h, ?_⟩, fun image himage => (hload image himage).2, ?_⟩
  · rintro ⟨image, himage⟩
    exact (hload image himage).1
  · intro image hcut hne hok
    obtain ⟨whole, hwhole⟩ := image_of_loadBinary u old h hok
    have hsame := bytes_eq_of_front (hwhole.trans hcut)
    apply hne
    exact hcut.eq_of_length_le (hsame ▸ hwhole.length_le)

end Load

/-- Maps in the order of their last assignments and a stable sort. -/
def asAssigned : Unspecified (BitVec 32) (BitVec 64) where
  order := inOrder
  sort less l := l.mergeSort fun a b => !less b a
  sort_perm _ l := List.mergeSort_perm l _

/-- A node that gives the same successor twice. -/
def twice : Image (BitVec 32) (BitVec 64) where
  firsts := [(97, 1)]
  nodes := [(97, [(98, 1), (98, 2)])]
  firsts_lt := by decide
  nodes_lt := by decide
  successors_lt := by decide
  nodup := by decide

theorem images_are_what_loads_twice :
    (loadBinary asAssigned {} { content := twice.bytes ++ [0] } true).1 = .OK ∧
      Has twice (loadBinary asAssigned {} { content := twice.bytes ++ [0] } true).2.1 := by
  have h := images_are_what_loads asAssigned {} (InputStream.holds_open (twice.bytes ++ [0]))
  exact ⟨h.1.mpr ⟨twice, List.prefix_append _ _⟩, h.2.1 twice (List.prefix_append _ _)⟩

end Chain

end pwned.markov
