-- The file of a Markov chain gives the chain back. What is read builds the
-- maps anew, so it is the lookups that come back and not the entries.
import Pwned.MarkovImage

open UnorderedMap Reader

namespace pwned.markov

variable {S P : Type}

namespace Chain

/-! ## Reading what was written -/

theorem length_iterate (u : Unspecified S P) (chain : Chain S P) :
    (u.order.iterate chain.mNodes).length = chain.mNodes.entries.length := by
  rw [(u.order.perm chain.mNodes).length_eq, pairs_length]

section Read

variable [Stored S 4] [Stored P 8] [DecidableEq S]

/-- The entries of a map of nodes as they are loaded. -/
def loadedEntries (l : List (S × Node S P)) : List (S × Node S P) :=
  l.map fun e => (e.1, loadedNode e.2.mSortedProbs)

/-- Every size in the file fits its 32 bits. -/
structure Fits (chain : Chain S P) : Prop where
  firsts : chain.mFirstSymbolSortedProbs.length < 2 ^ 32
  nodes : chain.mNodes.entries.length < 2 ^ 32
  successors : ∀ c node, chain.mNodes.lookup c = some node →
    node.mSortedProbs.length < 2 ^ 32

/-- What is loaded from the file of a chain. -/
def loaded (u v : Unspecified S P) [LT P] [DecidableLT P] (chain : Chain S P) : Chain S P :=
  { mFirstSymbolSortedProbs := chain.mFirstSymbolSortedProbs,
    mNodes := (insertAll ∅ (loadedEntries (u.order.iterate chain.mNodes))).mapValues
      (Node.postprocess v) }

/-- What the file of a chain says. -/
def Fits.image {chain : Chain S P} (h : chain.Fits) (u : Unspecified S P) : Image S P where
  firsts := chain.mFirstSymbolSortedProbs
  nodes := (u.order.iterate chain.mNodes).map fun e => (e.1, e.2.mSortedProbs)
  firsts_lt := h.firsts
  nodes_lt := by
    rw [List.length_map, length_iterate]
    exact h.nodes
  successors_lt := by
    intro e he
    obtain ⟨⟨c, node⟩, hmem, rfl⟩ := List.mem_map.mp he
    exact h.successors c node (mem_pairs.mp ((u.order.perm _).mem_iff.mp hmem))
  nodup := by
    rw [List.map_map]
    exact u.order.nodup_keys _

theorem saveBinary_eq_bytes (u : Unspecified S P) {chain : Chain S P} (h : chain.Fits)
    (hne : chain.mNodes.entries ≠ []) : saveBinary u chain = (h.image u).bytes := by
  unfold saveBinary Image.bytes
  rw [if_neg (by simpa using hne)]
  simp only [Fits.image, List.length_map, length_iterate, List.flatMap_map]
  rfl

theorem loadBinary_saveBinary [LT P] [DecidableLT P] (u v : Unspecified S P)
    {chain : Chain S P} (h : chain.Fits) (hne : chain.mNodes.entries ≠ []) (old : Chain S P) :
    ∃ is, loadBinary v old { content := saveBinary u chain } true =
      (.OK, loaded u v chain, is) := by
  have hopen := InputStream.holds_open (h.image u).bytes
  rw [← List.append_nil (h.image u).bytes] at hopen
  obtain ⟨is, hload, -⟩ := loadBinary_image v (h.image u) hopen old
  rw [List.append_nil, ← saveBinary_eq_bytes u h hne] at hload
  refine ⟨is, ?_⟩
  rw [hload]
  simp only [loaded, imageChain, Fits.image, loadedNodes, loadedEntries, List.map_map]
  rfl

end Read

/-! ## The same answers -/

section Answers

variable [DecidableEq S]

/-- Two nodes with the same probabilities of successors. -/
def SameSuccessors (a b : Node S P) : Prop :=
  (∀ d, b.probability d = a.probability d) ∧ b.mSortedProbs.Perm a.mSortedProbs

/-- The second chain answers as the first one does. -/
structure SameAnswers [Zero P] [One P] [Neg P] [Mul P] (a b : Chain S P) : Prop where
  firsts : b.mFirstSymbolSortedProbs = a.mFirstSymbolSortedProbs
  nodes : ∀ c, c ∈ b.mNodes ↔ c ∈ a.mNodes
  successors : ∀ c n m, a.mNodes.lookup c = some n → b.mNodes.lookup c = some m →
    SameSuccessors n m
  totals : ∀ pwd, b.totalProbability pwd = a.totalProbability pwd

/-- The nodes of two chains go together. -/
def SameNodes (a b : Chain S P) : Prop :=
  ∀ c, Option.Rel SameSuccessors (a.mNodes.lookup c) (b.mNodes.lookup c)

theorem follow_congr [Zero P] [Mul P] {a b : Chain S P} (h : SameNodes a b) (pwd : List S) :
    ∀ {n m : Option (Node S P)} (p : P), Option.Rel SameSuccessors n m →
      b.follow m p pwd = a.follow n p pwd := by
  induction pwd with
  | nil =>
    intro n m p hrel
    cases hrel <;> rfl
  | cons c rest ih =>
    intro n m p hrel
    cases hrel with
    | none => rfl
    | some hsame =>
      unfold follow
      rw [hsame.1 c]
      cases hp : Node.probability _ c with
      | none => rfl
      | some q => exact ih (p * q) (h c)

theorem SameNodes.sameAnswers [Zero P] [One P] [Neg P] [Mul P] {a b : Chain S P}
    (h : SameNodes a b) (hfirsts : b.mFirstSymbolSortedProbs = a.mFirstSymbolSortedProbs) :
    SameAnswers a b := by
  have hsome : ∀ {n m : Option (Node S P)}, Option.Rel SameSuccessors n m →
      m.isSome = n.isSome := by
    rintro n m (_ | _) <;> rfl
  refine ⟨hfirsts, ?_, ?_, ?_⟩
  · intro c
    rw [← AList.lookup_isSome, ← AList.lookup_isSome, hsome (h c)]
  · intro c n m hn hm
    have hc := h c
    rw [hn, hm] at hc
    cases hc with
    | some hsame => exact hsame
  · intro pwd
    cases pwd with
    | nil => rfl
    | cons s rest =>
      unfold totalProbability
      dsimp only
      rw [hfirsts]
      cases a.mFirstSymbolSortedProbs.find? fun p => p.1 == s with
      | none => rfl
      | some first => exact follow_congr h rest first.2 (h first.1)

/-- A chain of few symbols fits the file. -/
theorem Within.fits {T : List S} {chain : Chain S P} (h : chain.Within T) (hu : chain.Updated)
    (hT : T.dedup.length < 2 ^ 32) : chain.Fits := by
  refine ⟨?_, (length_le h.nodes).trans_lt hT, ?_⟩
  · rw [hu.firsts.length_eq, pairs_length]
    exact (length_le h.probs).trans_lt hT
  · intro c node hc
    rw [(hu.nodes c node hc).length_eq, pairs_length]
    exact (length_le (h.successors c node hc).probs).trans_lt hT

variable [LT P] [DecidableLT P]

theorem sameNodes_loaded (u v : Unspecified S P) {chain : Chain S P}
    (h : ∀ c node, chain.mNodes.lookup c = some node → node.mSortedProbs.Perm node.mProbs.pairs) :
    SameNodes chain (loaded u v chain) := by
  intro c
  have hkeys : ((loadedEntries (u.order.iterate chain.mNodes)).map Prod.fst) =
      (u.order.iterate chain.mNodes).map Prod.fst := by
    unfold loadedEntries
    rw [List.map_map]
    rfl
  have hlook : (loaded u v chain).mNodes.lookup c =
      ((insertAll ∅ (loadedEntries (u.order.iterate chain.mNodes))).lookup c).map
        (Node.postprocess v) := lookup_mapValues _ _ c
  rw [hlook]
  cases hc : chain.mNodes.lookup c with
  | none =>
    have hnot : c ∉ (loadedEntries (u.order.iterate chain.mNodes)).map Prod.fst := by
      rw [hkeys, u.order.mem_keys, ← AList.lookup_eq_none, hc]
    rw [lookup_insertAll_of_notMem _ _ hnot, AList.lookup_empty]
    exact Option.Rel.none
  | some node =>
    have hmem : (c, loadedNode node.mSortedProbs) ∈
        loadedEntries (u.order.iterate chain.mNodes) :=
      List.mem_map.mpr ⟨(c, node), (u.order.perm _).mem_iff.mpr (mem_pairs.mpr hc), rfl⟩
    rw [lookup_insertAll_of_mem _ ∅ (by rw [hkeys]; exact u.order.nodup_keys _) hmem]
    have hprobs : ∀ d, (insertAll ∅ node.mSortedProbs).lookup d = node.mProbs.lookup d :=
      lookup_insertAll_of_perm (h c node hc)
    refine Option.Rel.some ⟨hprobs, ?_⟩
    refine (sorted_perm v _).trans (List.Perm.trans ?_ (h c node hc).symm)
    exact pairs_perm_of_lookup hprobs

variable [NatCast P] [Div P] [Stored S 4] [Stored P 8] [Zero P] [One P] [Neg P] [Mul P]

/-- The chain trained on the passwords comes back from its file. -/
def ComesBack (u v : Unspecified S P) (pwds : List (List S)) (old : Chain S P) : Prop :=
  ∃ chain is, loadBinary v old { content := saveBinary u (trained u pwds) } true =
    (.OK, chain, is) ∧ SameAnswers (trained u pwds) chain

/-- With a password of two symbols the chain comes back, whatever chain it is loaded into, if every
size in its file fits 32 bits. -/
theorem a_trained_chain_comes_back (u v : Unspecified S P) (pwds : List (List S))
    (hpair : ∃ pwd ∈ pwds, 2 ≤ pwd.length) (hfits : (trained u pwds).Fits) (old : Chain S P) :
    ComesBack u v pwds old := by
  have hu := updated_trained u pwds
  obtain ⟨is, hload⟩ := loadBinary_saveBinary u v hfits (nodes_trained_ne_nil u hpair) old
  exact ⟨_, is, hload, (sameNodes_loaded u v hu.nodes).sameAnswers rfl⟩

end Answers

/-! ## What does not come back -/

section Lost

variable [DecidableEq S] [LT P] [DecidableLT P] [Stored S 4] [Stored P 8]

/-- A chain without nodes is not saved at all. -/
theorem loadBinary_of_no_nodes (u v : Unspecified S P) {chain : Chain S P}
    (h : chain.mNodes.entries = []) (old : Chain S P) :
    ∃ loaded is, loadBinary v old { content := saveBinary u chain } true =
      (.BAD_HEADER_PREMATURE_EOF, loaded, is) := by
  have hsave : saveBinary u chain = [] := by
    unfold saveBinary
    rw [if_pos (by rw [h]; rfl)]
  rw [hsave]
  exact ⟨_, _, rfl⟩

omit [LT P] [DecidableLT P] in
theorem keeps_readNode :
    Keeps (readNode : Reader ErrCode (Chain S P) Unit) mFirstSymbolSortedProbs := by
  have hsucc : ∀ c : S, Keeps (readSuccessor c : Reader ErrCode (Chain S P) Unit)
      mFirstSymbolSortedProbs := fun c =>
    (Keeps.field _).bind fun _ => (Keeps.field _).bind fun _ => Keeps.modify fun _ => rfl
  unfold readNode
  refine (Keeps.field _).bind fun c => Keeps.state.bind fun chain => ?_
  split
  · exact Keeps.throw _
  · dsimp only
    refine Keeps.bind (Keeps.modify ?_) fun _ => ?_
    · intro s
      rfl
    · exact (Keeps.field _).bind fun n => (hsucc c).times _

/-- A chain with a multiple of `2 ^ 32` first symbols loses them all. -/
theorem loadBinary_of_wrapped_size (u v : Unspecified S P) {chain : Chain S P}
    (hne : chain.mNodes.entries ≠ [])
    (hwrap : BitVec.ofNat 32 chain.mFirstSymbolSortedProbs.length = 0) (old : Chain S P) :
    (loadBinary v old { content := saveBinary u chain } true).2.1.mFirstSymbolSortedProbs =
      [] := by
  have hopen := InputStream.holds_open (saveBinary u chain)
  have hkeep : Keeps (do
      let symbolCount ← field (BitVec 32) .BAD_SYMBOL_COUNT_PREMATURE_EOF
      times readNode symbolCount.toNat : Reader ErrCode (Chain S P) Unit)
      mFirstSymbolSortedProbs :=
    (Keeps.field _).bind fun n => keeps_readNode.times _
  have hread : (readChain { content := saveBinary u chain }
      ({} : Chain S P)).2.2.mFirstSymbolSortedProbs = [] := by
    unfold saveBinary at hopen
    rw [if_neg (by simpa using hne)] at hopen
    obtain ⟨is₁, hold₁, hrun₁⟩ := (Consumes.readBytes (n := 4) rfl
      ErrCode.BAD_HEADER_PREMATURE_EOF ({} : Chain S P)).run_bind (β := Unit) hopen
    obtain ⟨is₂, hold₂, hrun₂⟩ := (Consumes.field FileVersion
      ErrCode.BAD_VERSION_PREMATURE_EOF ({} : Chain S P)).run_bind (β := Unit) hold₁
    obtain ⟨is₃, -, hrun₃⟩ := (Consumes.field (BitVec.ofNat 32
      chain.mFirstSymbolSortedProbs.length) ErrCode.BAD_SYMBOL_COUNT_PREMATURE_EOF
      ({} : Chain S P)).run_bind (β := Unit) hold₂
    unfold readChain saveBinary
    rw [if_neg (by simpa using hne), hrun₁, if_neg (by simp)]
    dsimp only
    rw [hrun₂, if_neg (by simp), hrun₃, hwrap]
    exact hkeep is₃ {}
  unfold loadBinary
  simp only [if_true]
  rw [if_pos (by rfl)]
  rcases hrun : readChain { content := saveBinary u chain } ({} : Chain S P) with
    ⟨result, is, chain'⟩
  rw [hrun] at hread
  cases result with
  | error ec => exact hread
  | ok => exact hread

end Lost

/-! ## Two files -/

theorem a_trained_chain_comes_back_two_symbols :
    ComesBack asAssigned asAssigned [[97, 98]] {} :=
  a_trained_chain_comes_back asAssigned asAssigned [[97, 98]]
    ⟨_, List.mem_singleton_self _, by decide⟩
    ((within_trained asAssigned [[97, 98]]).fits (updated_trained asAssigned [[97, 98]])
      (by decide)) {}

/-- Every symbol once in front of another one. -/
def everySymbol : List (List (BitVec 32)) :=
  (List.finRange (2 ^ 32)).map fun i => [BitVec.ofFin i, 0]

theorem length_of_mem_all {V : Type} {m : UnorderedMap (BitVec 32) V} (h : ∀ c, c ∈ m) :
    m.entries.length = 2 ^ 32 := by
  have hnd : ((List.finRange (2 ^ 32)).map BitVec.ofFin).Nodup :=
    (List.nodup_finRange _).map fun i j hij => by simpa using congrArg BitVec.toFin hij
  have hperm : m.keys.Perm ((List.finRange (2 ^ 32)).map BitVec.ofFin) := by
    refine (List.perm_ext_iff_of_nodup m.keys_nodup hnd).mpr fun c => ?_
    refine iff_of_true (AList.mem_keys.mp (h c)) ?_
    exact List.mem_map.mpr ⟨c.toFin, List.mem_finRange _, rfl⟩
  have hlen := hperm.length_eq
  rwa [AList.keys, List.keys, List.length_map, List.length_map, List.length_finRange] at hlen

theorem everySymbol_does_not_come_back : ¬ ComesBack asAssigned asAssigned everySymbol {} := by
  rintro ⟨chain, is, hload, hsame⟩
  have hu := updated_trained asAssigned everySymbol
  have hpair : ∀ c : BitVec 32, [c, 0] ∈ everySymbol := fun c =>
    List.mem_map.mpr ⟨c.toFin, List.mem_finRange _, rfl⟩
  have hall : ∀ c, c ∈ (trained asAssigned everySymbol).mFirstSymbolProbs := fun c =>
    mem_probs_trained asAssigned ⟨_, hpair c, rfl⟩
  have hlen : (trained asAssigned everySymbol).mFirstSymbolSortedProbs.length = 2 ^ 32 := by
    rw [hu.firsts.length_eq, pairs_length, length_of_mem_all hall]
  have hne := nodes_trained_ne_nil asAssigned ⟨_, hpair 0, le_refl 2⟩
  have hlost := loadBinary_of_wrapped_size asAssigned asAssigned hne (by rw [hlen]; rfl) {}
  rw [hload] at hlost
  have hnil := hsame.firsts.symm.trans hlost
  rw [hnil] at hlen
  cases hlen

/-- Passwords of one symbol do not come back, and neither do `2 ^ 32` different first
symbols. -/
theorem some_trained_chains_do_not_come_back :
    ((∃ pwd ∈ [[(97 : BitVec 32)]], pwd ≠ []) ∧ ¬ ComesBack asAssigned asAssigned [[97]] {}) ∧
      (∃ pwd ∈ everySymbol, pwd ≠ []) ∧ ¬ ComesBack asAssigned asAssigned everySymbol {} := by
  refine ⟨⟨⟨_, List.mem_singleton_self _, by decide⟩, ?_⟩, ⟨[0, 0], ?_, by decide⟩,
    everySymbol_does_not_come_back⟩
  · rintro ⟨chain, is, hload, -⟩
    have hnone : (trained asAssigned [[97]]).mNodes.entries = [] := rfl
    obtain ⟨loaded, is', hbad⟩ := loadBinary_of_no_nodes asAssigned asAssigned hnone {}
    cases hload.symm.trans hbad
  · exact List.mem_map.mpr ⟨0, List.mem_finRange 0, rfl⟩

end Chain

end pwned.markov
