-- The memory that the maps of all conversions take while the program runs,
-- whatever keys are pressed.
import Pwned.ConverterProgram
import Pwned.QueueOrder

open Counting

namespace pwned

namespace ConverterProgram

open ConvertOperation ConvertNames ConvertThreads

/-! ## The memory of one conversion -/

section Memory

/-- The map is no larger than the memory that was counted for it, and that is at most one entry over
what a conversion may take. -/
structure Fits (maxMem : Nat) (v : Converting) : Prop where
  entries : memUsagePerEntry.toNat * v.passwordCountSet.length ≤ v.memUsage.toNat
  memory : v.memUsage.toNat ≤ maxMem + 67

theorem fits_nextChunk (maxMem : Nat) (v : Converting) : Fits maxMem (nextChunk v) := by
  constructor <;> simp [nextChunk]

variable {md5 : List UInt8 → Vector UInt8 16} {maxMem : Nat}

theorem Fits.countLine {d : ConvertOperation} {v : Converting} (h : Fits maxMem v)
    (hmem : d.maxMem.toNat ≤ maxMem) (hfit : maxMem + 68 ≤ 2 ^ 64) (hgo : goesOn d v = true) :
    Fits maxMem (countLine md5 v) := by
  have hlt : v.memUsage.toNat < d.maxMem.toNat := by
    simp only [goesOn, Bool.and_eq_true, decide_eq_true_eq] at hgo
    exact BitVec.lt_def.mp hgo.2
  have hper : memUsagePerEntry.toNat = 68 := rfl
  have husage : (v.memUsage + memUsagePerEntry).toNat = v.memUsage.toNat + 68 := by
    rw [BitVec.toNat_add, hper, Nat.mod_eq_of_lt (by omega)]
  have hentries := h.entries
  rw [hper] at hentries
  have hset : (ConvertOperation.countLine md5 v).passwordCountSet.length ≤
      v.passwordCountSet.length + 1 := by
    unfold ConvertOperation.countLine
    dsimp only
    split
    · exact addOne_length _ _
    · omega
  refine ⟨?_, ?_⟩
  · rw [hper]
    refine (Nat.mul_le_mul_left 68 hset).trans ?_
    change _ ≤ (v.memUsage + memUsagePerEntry).toNat
    omega
  · change (v.memUsage + memUsagePerEntry).toNat ≤ _
    omega

variable {ι : Type} [DecidableEq ι] {d : ι → ConvertOperation}

theorem fits_set {threads : Threads ι} (h : ∀ i, Fits maxMem (threads.vars i)) {i : ι}
    {v : Converting} (hv : Fits maxMem v) (j : ι) : Fits maxMem ((threads.set i v).vars j) := by
  by_cases hj : j = i
  · rw [hj, set_vars]
    exact hv
  · rw [set_vars_of_ne hj]
    exact h j

/-- To note a chunk changes neither the map nor the memory. -/
theorem Fits.noteChunk {v : Converting} (h : Fits maxMem v) (fs : FileSystem Path) (p : Path) :
    Fits maxMem (noteChunk fs p v) := ⟨h.entries, h.memory⟩

theorem fits_step {threads threads' : Threads ι} {a : ConvertThreads.Move ι}
    (hmem : ∀ i, (d i).maxMem.toNat ≤ maxMem) (hfit : maxMem + 68 ≤ 2 ^ 64)
    (h : ∀ i, Fits maxMem (threads.vars i))
    (hs : ConvertThreads.step md5 d threads a = some threads') (j : ι) :
    Fits maxMem (threads'.vars j) := by
  cases a with
  | count i =>
    obtain ⟨-, hgo, rfl⟩ := step_count_iff.mp hs
    exact fits_set h ((h i).countLine (hmem i) hfit hgo) j
  | skip i =>
    obtain ⟨-, -, -, -, rfl⟩ := step_skip_iff.mp hs
    exact fits_set h (fits_nextChunk _ _) j
  | sort i =>
    obtain ⟨-, -, -, rfl⟩ := step_sort_iff.mp hs
    exact h j
  | test i =>
    obtain ⟨k, n, p, -, rfl⟩ := step_test_iff.mp hs
    exact h j
  | create i =>
    obtain ⟨k, p, -, ⟨-, rfl⟩ | ⟨-, rfl⟩⟩ := step_create_iff.mp hs
    · exact fits_set h ((h i).noteChunk _ _) j
    · exact fits_set h (fits_nextChunk _ _) j
  | dump i =>
    obtain ⟨k, p, phc, rest, -, -, rfl⟩ := step_dump_iff.mp hs
    exact h j
  | close i =>
    obtain ⟨k, p, -, -, rfl⟩ := step_close_iff.mp hs
    exact fits_set h (fits_nextChunk _ _) j

/-- The thread of the operation is in `execute`, where it has a map. -/
def inExecute : Stage → Bool
  | .executing | .polled | .waiting | .woken => true
  | _ => false

/-- How many entries the maps of all operations have together. -/
def entries (ops : List ι) (s : Program ι) : Nat :=
  (ops.map fun i =>
    if inExecute (s.queue.stage i) then (s.threads.vars i).passwordCountSet.length else 0).sum

/-- What every step keeps, whatever the keys do. -/
structure Bounded (d : ι → ConvertOperation) (ops : List ι) (capacity maxMem : Nat)
    (s : Program ι) : Prop where
  inOrder : OperationQueue.InOrder (fun i => priority (d i)) ops capacity s.queue
  fits : ∀ i, Fits maxMem (s.threads.vars i)

variable {ops : List ι} {capacity : Nat} {s s' : Program ι}

theorem Bounded.step (h : Bounded d ops capacity maxMem s) (hnodup : ops.Nodup)
    (hmem : ∀ i, (d i).maxMem.toNat ≤ maxMem) (hfit : maxMem + 68 ≤ 2 ^ 64) {a : Move ι}
    (hs : step md5 d s a = some s') : Bounded d ops capacity maxMem s' := by
  cases steps_of_step hs with
  | queue hreturns hqueue => exact ⟨h.inOrder.step hnodup hqueue, h.fits⟩
  | enters => exact ⟨h.inOrder, h.fits⟩
  | works hstage hentered hthreads => exact ⟨h.inOrder, fits_step hmem hfit h.fits hthreads⟩
  | turnsBack hstage | leaves hstage =>
    exact ⟨h.inOrder.step hnodup (step_returns _ hstage), h.fits⟩

/-- No more operations are in `execute` than the semaphore has permits. -/
theorem Bounded.countP_inExecute (h : Bounded d ops capacity maxMem s) (hnodup : ops.Nodup) :
    (ops.countP fun i => inExecute (s.queue.stage i)) ≤ capacity := by
  have hsub : (ops.filter fun i => inExecute (s.queue.stage i)) ⊆
      s.queue.opThreads.filter fun i => decide (s.queue.stage i ≠ .ended) := by
    intro i hi
    have hexecute := (List.mem_filter.mp hi).2
    rw [List.mem_filter, ← List.count_pos_iff, h.inOrder.threads, decide_eq_true_eq]
    cases hst : s.queue.stage i <;> rw [hst] at hexecute <;>
      simp [inExecute, OperationQueue.phase, OperationQueue.Phase.threads] at hexecute ⊢
  have hlength := (List.subperm_of_subset (hnodup.filter _) hsub).length_le
  rw [← List.countP_eq_length_filter, ← List.countP_eq_length_filter] at hlength
  have hpermits := h.inOrder.permits
  unfold OperationQueue.permitsHeld at hpermits
  omega

theorem Bounded.entries_le (h : Bounded d ops capacity maxMem s) (hnodup : ops.Nodup) :
    memUsagePerEntry.toNat * entries ops s ≤ capacity * (maxMem + 67) := by
  have hper : memUsagePerEntry.toNat = 68 := rfl
  have hentry : entries ops s ≤
      (ops.countP fun i => inExecute (s.queue.stage i)) * ((maxMem + 67) / 68) := by
    refine sum_le_countP_mul fun i _ => ?_
    have hentries := (h.fits i).entries
    have hmemory := (h.fits i).memory
    rw [hper] at hentries
    split
    · omega
    · exact Nat.le_refl 0
  calc memUsagePerEntry.toNat * entries ops s
    _ ≤ 68 * (capacity * ((maxMem + 67) / 68)) :=
      Nat.mul_le_mul_left 68
        (hentry.trans (Nat.mul_le_mul_right _ (h.countP_inExecute hnodup)))
    _ = capacity * (68 * ((maxMem + 67) / 68)) := by ring
    _ ≤ capacity * (maxMem + 67) := Nat.mul_le_mul_left _ (Nat.mul_div_le _ _)

/-- The memory that is told is a number of megabytes, so that a conversion never counts beyond 64
bits. -/
theorem Settings.maxMem_add_le (o : Settings) : o.maxMem.toNat + 68 ≤ 2 ^ 64 := by
  have hbytes : (o.memFreeAssumedMBytes * 1024 * 1024).toNat + 68 ≤ 2 ^ 64 := by
    have hkilo : (1024 : BitVec 64).toNat = 1024 := rfl
    rw [BitVec.toNat_mul, BitVec.toNat_mul, hkilo]
    omega
  have hdiv : o.maxMem.toNat ≤ (o.memFreeAssumedMBytes * 1024 * 1024).toNat := by
    unfold Settings.maxMem
    rw [BitVec.toNat_udiv]
    exact Nat.div_le_self _ _
  omega

theorem Settings.threads_mul_maxMem_le (o : Settings) :
    o.threads.toNat * o.maxMem.toNat ≤ o.memFreeAssumedMBytes.toNat * 2 ^ 20 := by
  have hbytes : (o.memFreeAssumedMBytes * 1024 * 1024).toNat ≤
      o.memFreeAssumedMBytes.toNat * 2 ^ 20 := by
    have hkilo : (1024 : BitVec 64).toNat = 1024 := rfl
    rw [BitVec.toNat_mul, BitVec.toNat_mul, hkilo]
    omega
  have hthreads : (o.threads.setWidth 64).toNat = o.threads.toNat := by
    rw [BitVec.toNat_setWidth, Nat.mod_eq_of_lt (by omega)]
  unfold Settings.maxMem
  rw [BitVec.toNat_udiv, hthreads]
  exact (Nat.mul_div_le _ _).trans hbytes

/-- At any time, whatever the keys do and however the conversions disturb one another, the maps of
all conversions together take no more than the memory of one conversion, rounded up to an entry,
for every permit of the semaphore: what the program was told to take, if the machine has no more
permits than the program was told to have threads. -/
theorem the_maps_fit_the_memory (md5 : List UInt8 → Vector UInt8 16) (o : Settings)
    (files : ι → Path × TextStream) (ops : List ι) (hnodup : ops.Nodup) (capacity : Nat)
    (fs₀ : FileSystem Path) (s : Program ι)
    (h : Reachable (step md5 fun i => o.operation (files i).1 (files i).2)
      (start (fun i => o.operation (files i).1 (files i).2) ops capacity fs₀) s) :
    memUsagePerEntry.toNat * entries ops s ≤ capacity * (o.maxMem.toNat + 67) ∧
      (capacity ≤ o.threads.toNat →
        memUsagePerEntry.toNat * entries ops s ≤
          o.memFreeAssumedMBytes.toNat * 2 ^ 20 + capacity * 67) := by
  have hstart : Bounded (fun i => o.operation (files i).1 (files i).2) ops capacity
      o.maxMem.toNat (start (fun i => o.operation (files i).1 (files i).2) ops capacity fs₀) :=
    ⟨OperationQueue.inOrder_start _ ops capacity, fun _ => fits_nextChunk _ _⟩
  have hbounded := h.invariant hstart fun _ _ _ hs _ hstep =>
    hs.step hnodup (fun _ => Nat.le_refl _) o.maxMem_add_le hstep
  have hentries := hbounded.entries_le hnodup
  refine ⟨hentries, fun hcapacity => hentries.trans ?_⟩
  rw [Nat.mul_add]
  exact Nat.add_le_add_right
    ((Nat.mul_le_mul_right _ hcapacity).trans o.threads_mul_maxMem_le) _

/-- One thread that may take a megabyte. -/
def oneMegabyte : Settings where
  dstDirectory := []
  outputExt := []
  memFreeAssumedMBytes := 1
  numThreads := 1

/-- The line `a` in `x` and the line `b` in `y`. -/
def twoFiles (i : Fin 2) : Path × TextStream :=
  ((oneLine i).srcFilePath, (oneLine i).inputFile)

/-- The first operation has counted its line. -/
theorem the_maps_fit_the_memory_two :
    ∃ s, Reachable (step firstByte fun i => oneMegabyte.operation (twoFiles i).1 (twoFiles i).2)
        (start (fun i => oneMegabyte.operation (twoFiles i).1 (twoFiles i).2) [0, 1] 1
          emptyDirectory) s ∧
      entries [0, 1] s = 1 ∧
      memUsagePerEntry.toNat * entries [0, 1] s ≤ 1 * (oneMegabyte.maxMem.toNat + 67) ∧
      (1 ≤ oneMegabyte.threads.toNat →
        memUsagePerEntry.toNat * entries [0, 1] s ≤
          oneMegabyte.memFreeAssumedMBytes.toNat * 2 ^ 20 + 1 * 67) := by
  have hrun : ((run (step firstByte fun i => oneMegabyte.operation (twoFiles i).1 (twoFiles i).2)
      (start (fun i => oneMegabyte.operation (twoFiles i).1 (twoFiles i).2) [0, 1] 1
        emptyDirectory) ((bothFiles fun _ => []).take 11)).map fun s => entries [0, 1] s) =
      some 1 := by
    decide +kernel
  obtain ⟨s, hs, hentries⟩ := Option.map_eq_some_iff.mp hrun
  have hreachable := reachable_of_run hs
  exact ⟨s, hreachable, hentries, the_maps_fit_the_memory firstByte oneMegabyte twoFiles [0, 1]
    (by decide) 1 emptyDirectory s hreachable⟩

end Memory

end ConverterProgram

end pwned
