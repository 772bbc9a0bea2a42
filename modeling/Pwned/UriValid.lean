-- The validity that `parse` gathers on its way. The mark is set before the
-- match, and a part that is not there is split like one that is.
import Pwned.UriTarget

open Regex

namespace webservice

/-! ## Texts with one mark -/

theorem length_splitOn (mark : UInt8) (text : List UInt8) :
    (text.splitOn mark).length = text.count mark + 1 := by
  induction text with
  | nil => rfl
  | cons c text ih =>
    rw [List.splitOn_cons_eq_if_modifyHead, List.count_cons]
    split
    · rw [List.length_cons, ih]
    · rw [List.length_modifyHead, ih, Nat.add_zero]

/-- A split has two pieces if there is one mark. -/
theorem splitOn_pair_iff {mark : UInt8} {text : List UInt8} :
    (∃ a b, text.splitOn mark = [a, b]) ↔ text.count mark = 1 := by
  rw [← List.length_eq_two, length_splitOn]
  omega

namespace URI

/-! ## Valid URIs -/

/-- The number that decimal digits write. -/
def number (digits : List UInt8) : Nat := digits.foldl (fun n c => 10 * n + (c.toNat - 48)) 0

/-- The text matches the grammar, and the parts that it has are well formed: the credentials have
one colon, every parameter has one `=`, and the port fits into 16 bits. -/
def Valid (s : List UInt8) : Prop :=
  ∃ m ∈ RE.search s,
    (∀ credentials ∈ m.lookup 2, credentials.count 58 = 1) ∧
    (∀ query ∈ m.lookup 7, ∀ param ∈ query.splitOn 38, param.count 61 = 1) ∧
    ∀ port ∈ m.lookup 4, number port ≤ 65535

/-- `parse` on a fresh object returns, and `isValid` then tells if the URI is valid. -/
def TellsValid (s : List UInt8) : Prop :=
  ∃ uri, ({} : URI).parse s = some uri ∧ (uri.isValid = true ↔ Valid s)

/-- The credentials or a parameter, which are there, are malformed. -/
def Malformed (m : List (Nat × List UInt8)) : Prop :=
  (∃ credentials ∈ m.lookup 2, credentials.count 58 ≠ 1) ∨
    ∃ query ∈ m.lookup 7, ∃ param ∈ query.splitOn 38, param.count 61 ≠ 1

/-! ## The mark -/

theorem setCredentials_mIsValid (uri : URI) (credentials : List UInt8) :
    (uri.setCredentials credentials).mIsValid = true ↔
      uri.mIsValid = true ∧ credentials.count 58 = 1 := by
  rw [← splitOn_pair_iff]
  unfold setCredentials
  split
  · rename_i username password hsplit
    simp [hsplit]
  · rename_i hsplit
    refine iff_of_false Bool.false_ne_true ?_
    rintro ⟨-, a, b, h⟩
    exact hsplit a b h

theorem addValidParam_mIsValid (uri : URI) (param : List UInt8) :
    (uri.addValidParam param).mIsValid = true ↔ uri.mIsValid = true ∧ param.count 61 = 1 := by
  rw [← splitOn_pair_iff]
  unfold addValidParam
  split
  · rename_i key value hsplit
    simp [hsplit]
  · rename_i hsplit
    refine iff_of_false Bool.false_ne_true ?_
    rintro ⟨-, a, b, h⟩
    exact hsplit a b h

theorem foldl_mIsValid (params : List (List UInt8)) (uri : URI) :
    (params.foldl addValidParam uri).mIsValid = true ↔
      uri.mIsValid = true ∧ ∀ param ∈ params, param.count 61 = 1 := by
  induction params generalizing uri with
  | nil => simp
  | cons param params ih =>
    rw [List.foldl_cons, ih, addValidParam_mIsValid, List.forall_mem_cons, and_assoc]

theorem stoi_eq (digits : List UInt8) :
    stoi digits = if number digits < 2 ^ 31 then some (number digits) else none := rfl

theorem setPort_of_lt {port : List UInt8} (h : number port < 2 ^ 31) (uri : URI) :
    ∃ mPort, uri.setPort port = some { uri with mPort } := by
  unfold setPort
  split_ifs
  · rw [stoi_eq, if_pos h]
    exact ⟨_, rfl⟩
  · split
    · exact ⟨_, rfl⟩
    · exact ⟨uri.mPort, rfl⟩

theorem setPort_of_le {port : List UInt8} (h : 2 ^ 31 ≤ number port) (uri : URI) :
    uri.setPort port = none := by
  have hpos : 0 < port.length := by
    cases port with
    | nil => exact absurd h (by decide)
    | cons c port => exact Nat.succ_pos _
  unfold setPort
  rw [if_pos hpos, stoi_eq, if_neg (Nat.not_lt.mpr h), Option.map_none]

/-- After a match, the mark stays if the credentials have one colon and every parameter one `=`,
be they there or not. -/
theorem parse_isValid {s : List UInt8} {m : List (Nat × List UInt8)} (hm : RE.search s = some m)
    (hport : number (str m 4) < 2 ^ 31) :
    ∃ uri, ({} : URI).parse s = some uri ∧ (uri.isValid = true ↔
      (str m 2).count 58 = 1 ∧ ∀ param ∈ (str m 7).splitOn 38, param.count 61 = 1) := by
  unfold parse
  simp only [hm]
  obtain ⟨mPort, hset⟩ := setPort_of_lt hport { setCredentials
    { ({} : URI) with mIsValid := true, mScheme := str m 1 } (str m 2) with mHost := str m 3 }
  simp only [hset]
  refine ⟨_, rfl, ?_⟩
  unfold isValid
  dsimp only
  rw [foldl_mIsValid]
  dsimp only
  rw [setCredentials_mIsValid, eq_self_iff_true, true_and]

/-- `std::stoi` throws at a long port. -/
theorem parse_of_long_port {s : List UInt8} {m : List (Nat × List UInt8)}
    (hm : RE.search s = some m) (hport : 2 ^ 31 ≤ number (str m 4)) :
    ({} : URI).parse s = none := by
  unfold parse
  simp only [hm, setPort_of_le hport]
  rfl

/-- Without a match the mark is never taken back. -/
theorem parse_of_no_match {s : List UInt8} (hm : RE.search s = none) :
    ({} : URI).parse s = some { ({} : URI) with mIsValid := true } := by
  unfold parse
  simp only [hm]

/-! ## The law -/

theorem valid_iff {s : List UInt8} {m : List (Nat × List UInt8)} (hm : RE.search s = some m) :
    Valid s ↔ ¬ Malformed m ∧ number (str m 4) ≤ 65535 := by
  have hport : (∀ port ∈ m.lookup 4, number port ≤ 65535) ↔ number (str m 4) ≤ 65535 := by
    unfold str
    cases m.lookup 4 with
    | none => simp [number]
    | some port => simp
  unfold Valid Malformed
  rw [hm, ← hport]
  simp [and_assoc]

/-- The mark stays if nothing is malformed and both parts are there. -/
theorem mark_iff (m : List (Nat × List UInt8)) :
    ((str m 2).count 58 = 1 ∧ ∀ param ∈ (str m 7).splitOn 38, param.count 61 = 1) ↔
      ¬ Malformed m ∧ m.lookup 2 ≠ none ∧ m.lookup 7 ≠ none := by
  unfold Malformed str
  cases m.lookup 2 <;> cases m.lookup 7 <;> simp

/-- `isValid` tells valid URIs apart exactly on the texts that match the grammar with a port below
2^31 and where the credentials or a parameter are malformed, or the credentials and the query are
both there just when the port fits. -/
theorem is_valid_tells_valid_uris_iff (s : List UInt8) :
    TellsValid s ↔ ∃ m ∈ RE.search s, number (str m 4) < 2 ^ 31 ∧
      (Malformed m ∨
        (m.lookup 2 ≠ none ∧ m.lookup 7 ≠ none ↔ number (str m 4) ≤ 65535)) := by
  unfold TellsValid
  cases hm : RE.search s with
  | none =>
    rw [parse_of_no_match hm]
    have hvalid : ¬ Valid s := by simp [Valid, hm]
    simp [isValid, hvalid]
  | some m =>
    rw [valid_iff hm]
    by_cases hport : number (str m 4) < 2 ^ 31
    · obtain ⟨uri, hparse, hmark⟩ := parse_isValid hm hport
      simp only [hparse, Option.some.injEq, exists_eq_left', hmark, mark_iff, Option.mem_def,
        hport, true_and]
      by_cases hbad : Malformed m
      · simp [hbad]
      · simp only [hbad, not_false_eq_true, true_and, false_or]
    · rw [parse_of_long_port hm (Nat.not_lt.mp hport)]
      refine iff_of_false ?_ ?_
      · rintro ⟨uri, huri, -⟩
        cases huri
      · rintro ⟨m', hm', hlt, -⟩
        rw [Option.some.inj hm'] at hport
        exact hport hlt

/-- Without credentials and a query, which are optional, a URI is called invalid. -/
theorem a_plain_uri_is_called_invalid : ¬ TellsValid (ascii "http://localhost/") := by
  have hparse : (({} : URI).parse (ascii "http://localhost/")).map isValid = some false := by
    decide +kernel
  have hm : RE.search (ascii "http://localhost/") =
      some [(5, ascii "/"), (3, ascii "localhost"), (1, ascii "http")] := by decide +kernel
  have hvalid : Valid (ascii "http://localhost/") :=
    ⟨_, hm, by decide, by decide, by decide⟩
  rintro ⟨uri, huri, htells⟩
  rw [huri, Option.map_some, htells.mpr hvalid] at hparse
  revert hparse
  decide

end URI

end webservice
