-- The two probe loops over an index table: where they end, and where they run
-- for ever.
import Pwned.Index
import Pwned.PasswordInspector

open LittleEndian

namespace pwned.PasswordInspector

open index

/-! ## The probe loops -/

section Probe

variable {t : List (BitVec 64)} {f : InputStream}

theorem read_entry (hc : f.content = encodeTable t) (hf : f.fail = false) {k : Nat}
    (hk : k < t.length) :
    ∃ g, (f.seekg (8 * k : Nat)).read 8 = (bytes 8 t[k].toNat, g) ∧ g.content = f.content ∧
      g.fail = false := by
  have hblock : ∀ e : BitVec 64, (bytes 8 e.toNat).length = 8 := by simp
  have hlen : (encodeTable t).length = 8 * t.length := length_flatMap_of_block hblock t
  have hseek := InputStream.seekg_nat (8 * k) hf
  have hg := InputStream.seekg_good (8 * k) hf
  have hread := InputStream.read_of_le (n := 8) hg (by rw [hseek]; simp only [hc, hlen]; omega)
  have hbytes : (f.content.drop (8 * k)).take 8 = bytes 8 t[k].toNat := by
    rw [hc, encodeTable, drop_flatMap_of_block hblock, List.drop_eq_getElem_cons hk,
      List.flatMap_cons, List.take_append_of_le_length (by simp)]
    exact List.take_of_length_le (by simp)
  refine ⟨{ f.seekg (8 * k : Nat) with pos := 8 * k + 8 }, ?_, by simp, ?_⟩
  · rw [hread, hseek]
    simp only [hbytes]
  · rw [hseek]
    exact hf

/-- One turn of a probe loop at an entry of the table. -/
theorem probe_turn (step : Int) (hc : f.content = encodeTable t) (hf : f.fail = false) {k : Nat}
    (hk : k < t.length) (var : BitVec 64) (n : Nat) :
    ∃ g, g.content = f.content ∧ g.fail = false ∧ ∀ fuel,
      probe step (fuel + 1) f (8 * k : Nat) var n =
        if t[k].toInt = -1 then probe step fuel g ((8 * k : Nat) + step) t[k] (n + 1)
        else some (t[k], n + 1, g) := by
  obtain ⟨g, hread, hgc, hgf⟩ := read_entry hc hf hk
  refine ⟨g, hgc, hgf, fun fuel => ?_⟩
  have hover : overwrite (bytes 8 var.toNat) (bytes 8 t[k].toNat) = bytes 8 t[k].toNat :=
    overwrite_of_length (by simp)
  rw [probe]
  simp only [indexKeySize, hread, hover, word_bytes 8 t[k] rfl]

/-- One turn whose read transfers nothing. -/
theorem probe_blank {idx : Int} {g : InputStream} (step : Int)
    (hread : (f.seekg idx).read 8 = ([], g)) (var : BitVec 64) (n fuel : Nat) :
    probe step (fuel + 1) f idx var n =
      if var.toInt = -1 then probe step fuel g (idx + step) var (n + 1)
      else some (var, n + 1, g) := by
  rw [probe]
  simp only [indexKeySize, hread, overwrite_nil, word_bytes 8 var rfl]

theorem read_failed (idx : Int) (hf : f.fail = true) :
    ∃ g, (f.seekg idx).read 8 = ([], g) ∧ g.fail = true := by
  have hseek : (f.seekg idx).fail = true := by
    rw [InputStream.seekg_of_fail idx hf]
    simp [InputStream.fail]
  refine ⟨_, InputStream.read_of_not_good (InputStream.not_good_of_fail hseek), ?_⟩
  simp [InputStream.fail]

/-- On a failed stream a loop that holds the sentinel never ends. -/
theorem probe_stuck (step : Int) {var : BitVec 64} (hvar : var.toInt = -1) (fuel : Nat) :
    ∀ {f : InputStream} (idx : Int) (n : Nat), f.fail = true →
      probe step fuel f idx var n = none := by
  induction fuel with
  | zero => intros; rfl
  | succ fuel ih =>
    intro f idx n hf
    obtain ⟨g, hread, hgf⟩ := read_failed idx hf
    rw [probe_blank step hread, if_pos hvar]
    exact ih _ _ hgf

/-- The loop that goes backwards ends at the last entry that is not all ones. -/
theorem probe_down {j k : Nat} (hjk : j ≤ k) (hk : k < t.length) (hj : t[j].toInt ≠ -1)
    (hbetween : ∀ i (hi : i ≤ k), j < i → t[i].toInt = -1) :
    ∀ {f : InputStream} (var : BitVec 64) (n : Nat), f.content = encodeTable t → f.fail = false →
      ∃ n' g, Yields (fun fuel => probe (-8) fuel f (8 * k : Nat) var n) (t[j], n', g) ∧
        g.content = f.content ∧ g.fail = false := by
  induction k, hjk using Nat.le_induction with
  | base =>
    intro f var n hc hf
    obtain ⟨g, hgc, hgf, hturn⟩ := probe_turn (-8) hc hf hk var n
    refine ⟨n + 1, g, Yields.of_shift 1 (Yields.of_eq fun fuel => ?_), hgc, hgf⟩
    rw [hturn, if_neg hj]
  | succ k hjk ih =>
    intro f var n hc hf
    obtain ⟨g, hgc, hgf, hturn⟩ := probe_turn (-8) hc hf hk var n
    have hback : ((8 * (k + 1) : Nat) : Int) + -8 = (8 * k : Nat) := by omega
    obtain ⟨n', g', hy, hg', hfail⟩ := ih (by omega) hj (fun i hi => hbetween i (by omega))
      t[k + 1] (n + 1) (by rw [hgc, hc]) hgf
    refine ⟨n', g', Yields.of_shift 1 ?_, by rw [hg', hgc], hfail⟩
    simpa only [hturn, hbetween (k + 1) le_rfl (by omega), if_true, hback] using hy

/-- Backwards over nothing but all ones the loop goes past the start of the index, where the
seek fails, and holds the sentinel for ever. -/
theorem probe_down_stuck {k : Nat} (hk : k < t.length) (hall : ∀ i (hi : i ≤ k), t[i].toInt = -1) :
    ∀ {f : InputStream} (var : BitVec 64) (n fuel : Nat), f.content = encodeTable t →
      f.fail = false → probe (-8) fuel f (8 * k : Nat) var n = none := by
  induction k with
  | zero =>
    intro f var n fuel hc hf
    obtain ⟨g, hgc, hgf, hturn⟩ := probe_turn (-8) hc hf hk var n
    cases fuel with
    | zero => rfl
    | succ fuel =>
      rw [hturn, if_pos (hall 0 le_rfl)]
      cases fuel with
      | zero => rfl
      | succ fuel =>
        have hseek : (g.seekg ((8 * 0 : Nat) + -8)).fail = true := by
          rw [InputStream.seekg_neg (by omega)]
          simp [InputStream.fail]
        have hread := InputStream.read_of_not_good (n := 8) (InputStream.not_good_of_fail hseek)
        rw [probe_blank (-8) hread, if_pos (hall 0 le_rfl)]
        exact probe_stuck (-8) (hall 0 le_rfl) fuel _ _ (by simp [InputStream.fail])
  | succ k ih =>
    intro f var n fuel hc hf
    obtain ⟨g, hgc, hgf, hturn⟩ := probe_turn (-8) hc hf hk var n
    have hback : ((8 * (k + 1) : Nat) : Int) + -8 = (8 * k : Nat) := by omega
    cases fuel with
    | zero => rfl
    | succ fuel =>
      rw [hturn, if_pos (hall _ le_rfl), hback]
      exact ih (by omega) (fun i hi => hall i (by omega)) _ _ fuel (by rw [hgc, hc]) hgf

/-- The read behind the last entry. -/
theorem read_past (hc : f.content = encodeTable t) (hf : f.fail = false) :
    ∃ g, (f.seekg (8 * t.length : Nat)).read 8 = ([], g) ∧ g.fail = true := by
  have hlen : (encodeTable t).length = 8 * t.length := length_flatMap_of_block (by simp) t
  have hg := InputStream.seekg_good (8 * t.length) hf
  refine ⟨_, InputStream.read_at_end hg (by norm_num) ?_, by simp [InputStream.fail]⟩
  rw [InputStream.seekg_nat _ hf]
  simp [hc, hlen]

/-- The loop that goes forwards ends at the first entry that is not all ones. -/
theorem probe_up {j : Nat} (hj : j < t.length) (hne : t[j].toInt ≠ -1) {d : Nat} :
    ∀ {f : InputStream} {k : Nat} (var : BitVec 64) (n : Nat), f.content = encodeTable t →
      f.fail = false → k + d = j → (∀ i (hi : i < j), k ≤ i → t[i].toInt = -1) →
      ∃ n' g, Yields (fun fuel => probe 8 fuel f (8 * k : Nat) var n) (t[j], n', g) := by
  induction d with
  | zero =>
    intro f k var n hc hf hk _
    obtain rfl : k = j := by omega
    obtain ⟨g, hgc, hgf, hturn⟩ := probe_turn 8 hc hf hj var n
    refine ⟨n + 1, g, Yields.of_shift 1 (Yields.of_eq fun fuel => ?_)⟩
    rw [hturn, if_neg hne]
  | succ d ih =>
    intro f k var n hc hf hk hbetween
    obtain ⟨g, hgc, hgf, hturn⟩ := probe_turn 8 hc hf (show k < t.length by omega) var n
    have hnext : ((8 * k : Nat) : Int) + 8 = (8 * (k + 1) : Nat) := by omega
    obtain ⟨n', g', hy⟩ := ih t[k] (n + 1) (by rw [hgc, hc]) hgf
      (show k + 1 + d = j by omega) (fun i hi hki => hbetween i hi (by omega))
    refine ⟨n', g', Yields.of_shift 1 ?_⟩
    simpa only [hturn, hbetween k (by omega) le_rfl, if_true, hnext] using hy

/-- Forwards over nothing but all ones the loop goes past the end of the index and holds the
sentinel for ever. -/
theorem probe_up_stuck {d : Nat} :
    ∀ {f : InputStream} {k : Nat} (var : BitVec 64) (n fuel : Nat), f.content = encodeTable t →
      f.fail = false → k + d + 1 = t.length →
      (∀ i (hi : i < t.length), k ≤ i → t[i].toInt = -1) →
      probe 8 fuel f (8 * k : Nat) var n = none := by
  induction d with
  | zero =>
    intro f k var n fuel hc hf hk hall
    obtain ⟨g, hgc, hgf, hturn⟩ := probe_turn 8 hc hf (show k < t.length by omega) var n
    have hnext : ((8 * k : Nat) : Int) + 8 = (8 * t.length : Nat) := by omega
    have hones := hall k (by omega) le_rfl
    cases fuel with
    | zero => rfl
    | succ fuel =>
      rw [hturn, if_pos hones, hnext]
      cases fuel with
      | zero => rfl
      | succ fuel =>
        obtain ⟨g', hread, hfail⟩ := read_past (by rw [hgc, hc]) hgf
        rw [probe_blank 8 hread, if_pos hones]
        exact probe_stuck 8 hones fuel _ _ hfail
  | succ d ih =>
    intro f k var n fuel hc hf hk hall
    obtain ⟨g, hgc, hgf, hturn⟩ := probe_turn 8 hc hf (show k < t.length by omega) var n
    have hnext : ((8 * k : Nat) : Int) + 8 = (8 * (k + 1) : Nat) := by omega
    cases fuel with
    | zero => rfl
    | succ fuel =>
      rw [hturn, if_pos (hall k (by omega) le_rfl), hnext]
      exact ih _ _ fuel (by rw [hgc, hc]) hgf (by omega) (fun i hi hki => hall i hi (by omega))

/-- A loop whose first read transfers nothing keeps the value it started with. -/
theorem probe_keeps {idx : Int} {g : InputStream} (step : Int)
    (hread : (f.seekg idx).read 8 = ([], g)) {var : BitVec 64} (hvar : var.toInt ≠ -1) (n : Nat) :
    Yields (fun fuel => probe step fuel f idx var n) (var, n + 1, g) := by
  refine Yields.of_shift 1 (Yields.of_eq fun fuel => ?_)
  rw [probe_blank step hread, if_neg hvar]

end Probe

end pwned.PasswordInspector
