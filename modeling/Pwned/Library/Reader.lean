-- Readers of fields in a row. A reader keeps a state beside the stream, and
-- the end of the file in a field is an error of that field.
import Pwned.Library.InputStream
import Pwned.Library.LittleEndian

/-- A type whose values are kept in `n` bytes, from which they come back. -/
class Stored (α : Type) (n : outParam Nat) where
  encode : α → List UInt8
  decode : List UInt8 → α
  length_encode : ∀ a, (encode a).length = n
  decode_encode : ∀ a, decode (encode a) = a

namespace Stored

open LittleEndian

/-- A word in little-endian order. -/
@[reducible] def ofWord (w n : Nat) (h : w = 8 * n) : Stored (BitVec w) n where
  encode x := bytes n x.toNat
  decode bs := BitVec.ofNat w (value bs)
  length_encode x := bytes_length n x.toNat
  decode_encode x := word_bytes n x h

instance : Stored (BitVec 8) 1 := ofWord 8 1 rfl
instance : Stored (BitVec 32) 4 := ofWord 32 4 rfl
instance : Stored (BitVec 64) 8 := ofWord 64 8 rfl

end Stored

/-- Any `n` bytes keep a value. -/
class StoredExactly (α : Type) (n : outParam Nat) [Stored α n] : Prop where
  encode_decode : ∀ bs, bs.length = n → Stored.encode (Stored.decode bs : α) = bs

namespace StoredExactly

open LittleEndian

instance : StoredExactly (BitVec 8) 1 := ⟨fun bs hbs => bytes_word bs hbs rfl⟩
instance : StoredExactly (BitVec 32) 4 := ⟨fun bs hbs => bytes_word bs hbs rfl⟩
instance : StoredExactly (BitVec 64) 8 := ⟨fun bs hbs => bytes_word bs hbs rfl⟩

end StoredExactly

/-- A reader with errors of type `ε` and a state of type `σ`. -/
def Reader (ε σ α : Type) := InputStream → σ → Except ε α × InputStream × σ

namespace Reader

variable {ε σ α β : Type}

instance : Monad (Reader ε σ) where
  pure a := fun is s => (.ok a, is, s)
  bind x f := fun is s =>
    match x is s with
    | (.ok a, is, s) => f a is s
    | (.error e, is, s) => (.error e, is, s)

instance : MonadExceptOf ε (Reader ε σ) where
  throw e := fun is s => (.error e, is, s)
  tryCatch x handle := fun is s =>
    match x is s with
    | (.ok a, is, s) => (.ok a, is, s)
    | (.error e, is, s) => handle e is s

/-- `n` bytes. -/
def readBytes (n : Nat) (eof : ε) : Reader ε σ (List UInt8) := fun is s =>
  let (bs, is) := is.read n
  (if is.eofbit then .error eof else .ok bs, is, s)

/-- A value of a type of `n` bytes. -/
def field (α : Type) {n : Nat} [Stored α n] (eof : ε) : Reader ε σ α := do
  let bs ← readBytes n eof
  pure (Stored.decode bs)

def state : Reader ε σ σ := fun is s => (.ok s, is, s)

def modify (f : σ → σ) : Reader ε σ Unit := fun is s => (.ok (), is, f s)

/-- A reader `n` times. -/
def times (x : Reader ε σ Unit) : Nat → Reader ε σ Unit
  | 0 => pure ()
  | n + 1 => do
    x
    times x n

/-! ## What a reader consumes -/

/-- On every good stream that goes on with the bytes `as`, the reader takes just these, gives
`a` and turns the state `s` into `s'`. -/
def Consumes (x : Reader ε σ α) (as : List UInt8) (a : α) (s s' : σ) : Prop :=
  ∀ is : InputStream, ∀ bs, is.Holds (as ++ bs) →
    ∃ is', x is s = (.ok a, is', s') ∧ is'.Holds bs

namespace Consumes

theorem pure (a : α) (s : σ) : Consumes (pure a : Reader ε σ α) [] a s s :=
  fun is _ h => ⟨is, rfl, h⟩

theorem modify (f : σ → σ) (s : σ) : Consumes (modify f : Reader ε σ Unit) [] () s (f s) :=
  fun is _ h => ⟨is, rfl, h⟩

theorem state (s : σ) : Consumes (state : Reader ε σ σ) [] s s s := fun is _ h => ⟨is, rfl, h⟩

theorem bind {x : Reader ε σ α} {f : α → Reader ε σ β} {as bs : List UInt8} {a : α} {b : β}
    {s s' s'' : σ} (hx : Consumes x as a s s') (hf : Consumes (f a) bs b s' s'') :
    Consumes (x >>= f) (as ++ bs) b s s'' := by
  intro is cs h
  rw [List.append_assoc] at h
  obtain ⟨is', hrun, hrest⟩ := hx is (bs ++ cs) h
  obtain ⟨is'', hrun', hrest'⟩ := hf is' cs hrest
  refine ⟨is'', ?_, hrest'⟩
  rw [← hrun']
  simp only [Bind.bind, hrun]

/-- After a reader that leaves the stream alone. -/
theorem bind_nil {x : Reader ε σ α} {f : α → Reader ε σ β} {bs : List UInt8} {a : α} {b : β}
    {s s' s'' : σ} (hx : Consumes x [] a s s') (hf : Consumes (f a) bs b s' s'') :
    Consumes (x >>= f) bs b s s'' := hx.bind hf

theorem readBytes {n : Nat} {as : List UInt8} (h : as.length = n) (eof : ε) (s : σ) :
    Consumes (readBytes n eof : Reader ε σ _) as as s s := by
  intro is bs hold
  obtain ⟨is', hread, hrest⟩ := hold.read h
  exact ⟨is', by simp [Reader.readBytes, hread, hrest.not_eof], hrest⟩

theorem field {n : Nat} [Stored α n] (a : α) (eof : ε) (s : σ) :
    Consumes (field α eof : Reader ε σ α) (Stored.encode a) a s s := by
  have h := bind (f := fun bs => Pure.pure (Stored.decode bs : α))
    (readBytes (Stored.length_encode a) eof s) (pure (Stored.decode (Stored.encode a)) s)
  rwa [List.append_nil, Stored.decode_encode] at h

/-- What comes after a reader goes on where it stopped. -/
theorem run_bind {x : Reader ε σ α} {as bs : List UInt8} {a : α} {s s' : σ}
    (hx : Consumes x as a s s') {is : InputStream} (h : is.Holds (as ++ bs)) :
    ∃ is', is'.Holds bs ∧ ∀ f : α → Reader ε σ β, (x >>= f) is s = f a is' s' := by
  obtain ⟨is', hrun, hrest⟩ := hx is bs h
  refine ⟨is', hrest, fun f => ?_⟩
  simp only [Bind.bind, hrun]

end Consumes

/-! ## What a reader takes -/

/-- On every good stream the reader fails with an error as `E` says, or it has taken bytes from
the front, and these, what it gives and the state that it leaves are as `Q` says. -/
def Takes (E : ε → Prop) (x : Reader ε σ α) (s : σ) (Q : List UInt8 → α → σ → Prop) : Prop :=
  ∀ is : InputStream, ∀ bs, is.Holds bs →
    match x is s with
    | (.error e, _, _) => E e
    | (.ok a, is', s') => ∃ as rest, bs = as ++ rest ∧ is'.Holds rest ∧ Q as a s'

namespace Takes

variable {E : ε → Prop} {s : σ}

theorem mono {x : Reader ε σ α} {P Q : List UInt8 → α → σ → Prop} (h : Takes E x s P)
    (hPQ : ∀ as a s', P as a s' → Q as a s') : Takes E x s Q := by
  intro is bs hold
  have hx := h is bs hold
  rcases hrun : x is s with ⟨e | a, is', s'⟩
  · rw [hrun] at hx
    exact hx
  · rw [hrun] at hx
    obtain ⟨as, rest, hbs, hrest, hP⟩ := hx
    exact ⟨as, rest, hbs, hrest, hPQ as a s' hP⟩

theorem pure {Q : List UInt8 → α → σ → Prop} {a : α} (h : Q [] a s) :
    Takes E (pure a : Reader ε σ α) s Q := fun _ bs hold => ⟨[], bs, rfl, hold, h⟩

theorem throw {Q : List UInt8 → α → σ → Prop} {e : ε} (h : E e) :
    Takes E (throw e : Reader ε σ α) s Q := fun _ _ _ => h

theorem state {Q : List UInt8 → σ → σ → Prop} (h : Q [] s s) :
    Takes E (state : Reader ε σ σ) s Q := fun _ bs hold => ⟨[], bs, rfl, hold, h⟩

theorem modify {Q : List UInt8 → Unit → σ → Prop} {f : σ → σ} (h : Q [] () (f s)) :
    Takes E (modify f : Reader ε σ Unit) s Q := fun _ bs hold => ⟨[], bs, rfl, hold, h⟩

theorem bind {x : Reader ε σ α} {f : α → Reader ε σ β} {Q : List UInt8 → β → σ → Prop}
    (h : Takes E x s fun as a s' => Takes E (f a) s' fun bs => Q (as ++ bs)) :
    Takes E (x >>= f) s Q := by
  intro is cs hold
  have hx := h is cs hold
  simp only [Bind.bind]
  rcases hrun : x is s with ⟨e | a, is', s'⟩
  · rw [hrun] at hx
    exact hx
  · rw [hrun] at hx
    obtain ⟨as, rest, hcs, hrest, hf⟩ := hx
    have hnext := hf is' rest hrest
    dsimp only
    rcases hrun' : f a is' s' with ⟨e | b, is'', s''⟩
    · rw [hrun'] at hnext
      exact hnext
    · rw [hrun'] at hnext
      obtain ⟨bs, rest', hrest', hold', hQ⟩ := hnext
      refine ⟨as ++ bs, rest', ?_, hold', hQ⟩
      rw [hcs, hrest', List.append_assoc]

theorem readBytes {n : Nat} {eof : ε} {Q : List UInt8 → List UInt8 → σ → Prop} (heof : E eof)
    (h : ∀ as, as.length = n → Q as as s) : Takes E (readBytes n eof : Reader ε σ _) s Q := by
  intro is bs hold
  unfold Reader.readBytes
  rcases lt_or_ge bs.length n with hshort | hlong
  · -- the end of the file is an error of the field
    have hend := hold.eof_of_short hshort
    simp only [hend, if_true]
    exact heof
  · have hlen : (bs.take n).length = n := List.length_take_of_le hlong
    have hsplit : bs = bs.take n ++ bs.drop n := (List.take_append_drop n bs).symm
    rw [hsplit] at hold
    obtain ⟨is', hread, hrest⟩ := hold.read hlen
    simp only [hread, hrest.not_eof, Bool.false_eq_true, if_false]
    exact ⟨bs.take n, bs.drop n, hsplit, hrest, h _ hlen⟩

theorem field {n : Nat} [Stored α n] [StoredExactly α n] {eof : ε} {Q : List UInt8 → α → σ → Prop}
    (heof : E eof) (h : ∀ a, Q (Stored.encode a) a s) :
    Takes E (field α eof : Reader ε σ α) s Q := by
  refine bind (readBytes heof fun as has => pure ?_)
  have hQ := h (Stored.decode as)
  rw [StoredExactly.encode_decode as has] at hQ
  rwa [List.append_nil]

/-- What turns take, from what each turn takes. -/
theorem times {x : Reader ε σ Unit} {P : σ → List UInt8 → σ → Prop}
    {Q : Nat → σ → List UInt8 → σ → Prop} (hx : ∀ s, Takes E x s fun as _ => P s as)
    (hzero : ∀ s, Q 0 s [] s)
    (hsucc : ∀ n s s' s'' as bs, P s as s' → Q n s' bs s'' → Q (n + 1) s (as ++ bs) s'')
    (n : Nat) : ∀ s, Takes E (Reader.times x n) s fun as _ => Q n s as := by
  induction n with
  | zero =>
    intro s
    exact pure (hzero s)
  | succ n ih =>
    intro s
    refine bind ((hx s).mono fun as _ s' hturn => ?_)
    exact (ih s').mono fun bs _ s'' hturns => hsucc n s s' s'' as bs hturn hturns

/-- The turns of a loop over values of one format take the bytes of a list of them. -/
theorem times_flatMap {ι : Type} {enc : ι → List UInt8} {x : Reader ε σ Unit}
    (hx : ∀ s, Takes E x s fun as _ _ => ∃ i, as = enc i) (n : Nat) :
    ∀ s, Takes E (Reader.times x n) s fun as _ _ =>
      ∃ l : List ι, l.length = n ∧ as = l.flatMap enc := by
  refine times (P := fun _ as _ => ∃ i, as = enc i)
    (Q := fun n _ as _ => ∃ l : List ι, l.length = n ∧ as = l.flatMap enc) hx ?_ ?_ n
  · intro s
    exact ⟨[], rfl, rfl⟩
  · rintro n s s' s'' as bs ⟨i, rfl⟩ ⟨l, rfl, rfl⟩
    exact ⟨i :: l, rfl, rfl⟩

/-- The bytes taken say what state is left. -/
theorem of_consumes {ι : Type} {good : ι → Prop} {enc : ι → List UInt8} {next : ι → σ}
    {x : Reader ε σ Unit} (hx : Takes E x s fun as _ _ => ∃ i, good i ∧ as = enc i)
    (hnext : ∀ i, good i → Consumes x (enc i) () s (next i)) :
    Takes E x s fun as _ s' => ∃ i, good i ∧ as = enc i ∧ s' = next i := by
  intro is bs hold
  have h := hx is bs hold
  rcases hrun : x is s with ⟨e | ⟨⟨⟩⟩, is', s'⟩
  · rw [hrun] at h
    exact h
  · rw [hrun] at h
    obtain ⟨as, rest, rfl, hrest, i, hi, rfl⟩ := h
    obtain ⟨is'', hrun', -⟩ := hnext i hi is rest hold
    rw [hrun] at hrun'
    cases hrun'
    exact ⟨_, rest, rfl, hrest, i, hi, rfl, rfl⟩

end Takes

/-! ## What a reader keeps -/

/-- The reader leaves `f` of the state as it is, whether it fails or not. -/
def Keeps {τ : Type} (x : Reader ε σ α) (f : σ → τ) : Prop := ∀ is s, f (x is s).2.2 = f s

namespace Keeps

variable {τ : Type} {f : σ → τ}

theorem pure (a : α) : Keeps (pure a : Reader ε σ α) f := fun _ _ => rfl

theorem throw (e : ε) : Keeps (throw e : Reader ε σ α) f := fun _ _ => rfl

theorem state : Keeps (state : Reader ε σ σ) f := fun _ _ => rfl

theorem modify {g : σ → σ} (h : ∀ s, f (g s) = f s) : Keeps (modify g : Reader ε σ Unit) f :=
  fun _ s => h s

theorem readBytes (n : Nat) (eof : ε) : Keeps (readBytes n eof : Reader ε σ _) f := fun _ _ => rfl

theorem bind {x : Reader ε σ α} {next : α → Reader ε σ β} (hx : Keeps x f)
    (hnext : ∀ a, Keeps (next a) f) : Keeps (x >>= next) f := by
  intro is s
  have h := hx is s
  simp only [Bind.bind]
  split
  · rename_i a is' s' hrun
    rw [hrun] at h
    exact (hnext a is' s').trans h
  · rename_i e is' s' hrun
    rw [hrun] at h
    exact h

theorem field {n : Nat} [Stored α n] (eof : ε) : Keeps (field α eof : Reader ε σ α) f :=
  (readBytes n eof).bind fun _ => pure _

theorem times {x : Reader ε σ Unit} (hx : Keeps x f) (n : Nat) : Keeps (times x n) f := by
  induction n with
  | zero => exact pure ()
  | succ n ih => exact hx.bind fun _ => ih

end Keeps

end Reader
