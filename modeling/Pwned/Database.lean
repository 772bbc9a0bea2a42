-- A database file and what it stores: a lookup is asked for the count that
-- the file keeps under a hash, and 0 where it keeps none. A bracket is the
-- part of the file where a search still has to look.
import Pwned.PasswordHashAndCount

namespace pwned

/-- The file of whole records that the tools exchange. -/
structure Database where
  records : List Record
  increasing : StrictlyIncreasing records
  /-- A file has a size that `std::streamoff` can hold. -/
  size_lt : 20 * records.length < 2 ^ 63

/-- The bytes of the file. -/
def Database.bytes (db : Database) : List UInt8 := encodeAll db.records

/-- The count kept under a key, 0 if there is none. -/
def stored (rs : List Record) (k : Nat) : BitVec 32 :=
  ((rs.find? (·.key == k)).map Record.count).getD 0

theorem StrictlyIncreasing.eq_of_key_eq {rs : List Record} (h : StrictlyIncreasing rs)
    {a b : Record} (ha : a ∈ rs) (hb : b ∈ rs) (hk : a.key = b.key) : a = b := by
  obtain ⟨i, hi, rfl⟩ := List.getElem_of_mem ha
  obtain ⟨j, hj, rfl⟩ := List.getElem_of_mem hb
  rcases lt_trichotomy i j with hij | hij | hij
  · exact absurd hk (List.pairwise_iff_getElem.mp h i j hi hj hij).ne
  · subst hij; rfl
  · exact absurd hk (List.pairwise_iff_getElem.mp h j i hj hi hij).ne'

theorem stored_of_mem {rs : List Record} (h : StrictlyIncreasing rs) {r : Record} (hr : r ∈ rs) :
    stored rs r.key = r.count := by
  unfold stored
  cases hf : rs.find? (·.key == r.key) with
  | none =>
    have := List.find?_eq_none.mp hf r hr
    simp at this
  | some s =>
    have hs := List.mem_of_find?_eq_some hf
    have hk := List.find?_some hf
    rw [h.eq_of_key_eq hs hr (by simpa using hk)]
    rfl

theorem stored_of_not_mem {rs : List Record} {k : Nat} (h : ∀ r ∈ rs, r.key ≠ k) :
    stored rs k = 0 := by
  unfold stored
  rw [List.find?_eq_none.mpr (by simpa using h)]
  rfl

/-! ## Brackets -/

/-- Every record before `a` lies under the key and every record from `b` on over it. -/
structure Bracket (rs : List Record) (k a b : Nat) : Prop where
  below : ∀ r ∈ rs.take a, r.key < k
  above : ∀ r ∈ rs.drop b, k < r.key

theorem bracket_all (rs : List Record) (k : Nat) {b : Nat} (hb : rs.length ≤ b) :
    Bracket rs k 0 b :=
  ⟨by simp, by simp [List.drop_eq_nil_of_le hb]⟩

/-- Nothing is stored under the key of an empty bracket. -/
theorem Bracket.stored_eq_zero {rs : List Record} {k a b : Nat} (h : Bracket rs k a b)
    (hab : b ≤ a) : stored rs k = 0 := by
  apply stored_of_not_mem
  intro r hr
  rw [← List.take_append_drop a rs, List.mem_append] at hr
  rcases hr with hr | hr
  · exact (h.below r hr).ne
  · exact (h.above r (List.drop_subset_drop_left rs hab hr)).ne'

/-- A record under the key moves the lower end of the bracket behind it. -/
theorem Bracket.raise {rs : List Record} (hs : StrictlyIncreasing rs) {k a b m : Nat}
    (h : Bracket rs k a b) (hm : m < rs.length) (hlt : rs[m].key < k) :
    Bracket rs k (m + 1) b := by
  refine ⟨?_, h.above⟩
  intro r hr
  obtain ⟨i, hi, rfl⟩ := List.getElem_of_mem hr
  simp only [List.length_take] at hi
  rw [List.getElem_take]
  rcases Nat.lt_or_eq_of_le (show i ≤ m by omega) with him | him
  · exact (List.pairwise_iff_getElem.mp hs i m (by omega) hm him).trans hlt
  · subst him; exact hlt

/-- A record over the key moves the upper end of the bracket to it. -/
theorem Bracket.lower {rs : List Record} (hs : StrictlyIncreasing rs) {k a b m : Nat}
    (h : Bracket rs k a b) (hm : m < rs.length) (hlt : k < rs[m].key) :
    Bracket rs k a m := by
  refine ⟨h.below, ?_⟩
  intro r hr
  obtain ⟨i, hi, rfl⟩ := List.getElem_of_mem hr
  simp only [List.length_drop] at hi
  rw [List.getElem_drop]
  rcases Nat.eq_zero_or_pos i with hi0 | hi0
  · subst hi0; exact hlt
  · exact hlt.trans (List.pairwise_iff_getElem.mp hs m (m + i) hm (by omega) (by omega))

end pwned
