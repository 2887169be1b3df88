import Moc.Lib.Bytes

/-!
# Checked memory

A block of memory is the list of its bytes. A read or a write that leaves the block is undefined
behaviour, which a translated function reports as a `Fault` instead of a value; so a function that
returns a value has touched no byte outside its blocks. The other faults are the other undefined
steps that a translated C function can take.
-/

open Bytes

namespace Memory

/-- An undefined step of a C program. -/
inductive Fault where
  /-- A read or write outside the block that the pointer belongs to. -/
  | outOfBounds
  /-- A pointer or value used before it was written. -/
  | uninitialised
  /-- A null pointer dereferenced. -/
  | nullPointer
  /-- An object used after it was freed. -/
  | useAfterFree
  /-- A division by zero. -/
  | divideByZero
  /-- Signed arithmetic outside the range of its type. -/
  | overflow
  /-- A loop over a cyclic structure, which does not end. -/
  | diverges
  deriving DecidableEq, Repr

@[simp] theorem ok_bind {α β : Type} (a : α) (f : α → Except Fault β) :
    (Except.ok a >>= f) = f a := rfl

@[simp] theorem error_bind {α β : Type} (e : Fault) (f : α → Except Fault β) :
    ((Except.error e : Except Fault α) >>= f) = Except.error e := rfl

@[simp] theorem pure_eq_ok {α : Type} (a : α) : (pure a : Except Fault α) = Except.ok a := rfl

/-- A sequence that succeeds does so in both parts. -/
theorem bind_eq_ok {α β : Type} {x : Except Fault α} {f : α → Except Fault β} {b : β} :
    x >>= f = .ok b ↔ ∃ a, x = .ok a ∧ f a = .ok b := by
  cases x <;> simp

/-- The two ways in which a computation of two steps faults. -/
theorem bind_eq_error {α β : Type} {x : Except Fault α} {f : α → Except Fault β} {e : Fault} :
    x >>= f = .error e ↔ x = .error e ∨ ∃ a, x = .ok a ∧ f a = .error e := by
  cases x <;> simp

/-- The `n` bytes at `pos` of the block `b`. -/
def load (b : List UInt8) (pos n : ℕ) : Except Fault (List UInt8) :=
  if pos + n ≤ b.length then .ok ((b.drop pos).take n) else .error .outOfBounds

/-- The 32-bit word at `pos`, stored in network order. -/
def load32 (b : List UInt8) (pos : ℕ) : Except Fault ℕ := do
  let bs ← load b pos 4
  return beNat bs

/-- The 16-bit word at `pos`, stored in network order. -/
def load16 (b : List UInt8) (pos : ℕ) : Except Fault ℕ := do
  let bs ← load b pos 2
  return beNat bs

/-- The C string at `pos`: the bytes before the first NUL. The NUL is read too, so it must lie in
the block. -/
def loadStr (b : List UInt8) (pos : ℕ) : Except Fault (List UInt8) :=
  if 0 ∈ b.drop pos then .ok ((b.drop pos).takeWhile (· ≠ 0)) else .error .outOfBounds

/-- The block `b` with the bytes `bs` written at `pos`. -/
def store (b : List UInt8) (pos : ℕ) (bs : List UInt8) : Except Fault (List UInt8) :=
  if pos + bs.length ≤ b.length then .ok (b.take pos ++ bs ++ b.drop (pos + bs.length))
  else .error .outOfBounds

/-- The four bytes at `pos` as a network-order word, with no bound on `pos`: what `load32` returns
where it is defined. -/
def word (b : List UInt8) (pos : ℕ) : ℕ := beNat ((b.drop pos).take 4)

/-! ## Staying inside -/

/-- A computation that reads and writes only inside its blocks. -/
def InBounds {α : Type} (x : Except Fault α) : Prop := x ≠ .error .outOfBounds

@[simp] theorem inBounds_ok {α : Type} (a : α) : InBounds (.ok a : Except Fault α) := by
  simp [InBounds]

@[simp] theorem inBounds_error {α : Type} (e : Fault) :
    InBounds (.error e : Except Fault α) ↔ e ≠ .outOfBounds := by
  simp [InBounds]

instance {α : Type} (x : Except Fault α) : Decidable (InBounds x) :=
  match x with
  | .ok a => .isTrue (inBounds_ok a)
  | .error e => decidable_of_iff _ (inBounds_error e).symm

/-- A sequence stays inside when its first part does and every continuation does. -/
theorem inBounds_bind {α β : Type} {x : Except Fault α} {f : α → Except Fault β}
    (hx : InBounds x) (hf : ∀ a, InBounds (f a)) : InBounds (x >>= f) := by
  cases x with
  | ok a => exact hf a
  | error e => exact (inBounds_error e).mpr ((inBounds_error e).mp hx)

/-- With continuations that stay inside, the first part decides. -/
theorem inBounds_bind_iff {α β : Type} {x : Except Fault α} {f : α → Except Fault β}
    (hf : ∀ a, InBounds (f a)) : InBounds (x >>= f) ↔ InBounds x := by
  refine ⟨fun h => ?_, fun hx => inBounds_bind hx hf⟩
  cases x with
  | ok a => simp
  | error e => exact (inBounds_error e).mpr ((inBounds_error e).mp h)

/-- A computation whose only fault is to leave its blocks. -/
def Checked {α : Type} (x : Except Fault α) : Prop := ∀ e, x = .error e → e = .outOfBounds

@[simp] theorem checked_ok {α : Type} (a : α) : Checked (.ok a : Except Fault α) := by
  simp [Checked]

theorem checked_bind {α β : Type} {x : Except Fault α} {f : α → Except Fault β} (hx : Checked x)
    (hf : ∀ a, Checked (f a)) : Checked (x >>= f) := by
  intro e he
  rcases bind_eq_error.mp he with h | ⟨a, -, h⟩
  · exact hx e h
  · exact hf a e h

theorem checked_ite {α : Type} {c : Prop} [Decidable c] {x y : Except Fault α} (hx : Checked x)
    (hy : Checked y) : Checked (if c then x else y) := by
  split_ifs <;> assumption

/-- Such a computation stays inside exactly when it returns. -/
theorem Checked.inBounds_iff {α : Type} {x : Except Fault α} (h : Checked x) :
    InBounds x ↔ ∃ a, x = .ok a := by
  cases x with
  | ok a => simp
  | error e => simp [h e rfl]

/-- A sequence whose first part can only leave its blocks stays inside when that part returns and
the rest stays inside. -/
theorem Checked.inBounds_bind_iff {α β : Type} {x : Except Fault α} {f : α → Except Fault β}
    (h : Checked x) : InBounds (x >>= f) ↔ ∃ a, x = .ok a ∧ InBounds (f a) := by
  cases x with
  | ok a => simp
  | error e => simp [h e rfl]

/-! ## Reads and writes -/

theorem checked_load (b : List UInt8) (pos n : ℕ) : Checked (load b pos n) := by
  intro e he
  rw [load] at he
  split_ifs at he
  exact (Except.error.inj he).symm

theorem checked_load32 (b : List UInt8) (pos : ℕ) : Checked (load32 b pos) :=
  checked_bind (checked_load b pos 4) fun _ => checked_ok _

theorem checked_store (b : List UInt8) (pos : ℕ) (bs : List UInt8) : Checked (store b pos bs) := by
  intro e he
  rw [store] at he
  split_ifs at he
  exact (Except.error.inj he).symm

theorem load_of_le {b : List UInt8} {pos n : ℕ} (h : pos + n ≤ b.length) :
    load b pos n = .ok ((b.drop pos).take n) := if_pos h

theorem load_of_lt {b : List UInt8} {pos n : ℕ} (h : b.length < pos + n) :
    load b pos n = .error .outOfBounds := if_neg (by omega)

theorem load32_of_le {b : List UInt8} {pos : ℕ} (h : pos + 4 ≤ b.length) :
    load32 b pos = .ok (word b pos) := by
  rw [load32, load_of_le h]
  rfl

theorem load32_of_lt {b : List UInt8} {pos : ℕ} (h : b.length < pos + 4) :
    load32 b pos = .error .outOfBounds := by
  rw [load32, load_of_lt h]
  rfl

theorem load16_of_le {b : List UInt8} {pos : ℕ} (h : pos + 2 ≤ b.length) :
    load16 b pos = .ok (beNat ((b.drop pos).take 2)) := by
  rw [load16, load_of_le h]
  rfl

theorem loadStr_of_mem {b : List UInt8} {pos : ℕ} (h : 0 ∈ b.drop pos) :
    loadStr b pos = .ok ((b.drop pos).takeWhile (· ≠ 0)) := if_pos h

theorem loadStr_of_not_mem {b : List UInt8} {pos : ℕ} (h : 0 ∉ b.drop pos) :
    loadStr b pos = .error .outOfBounds := if_neg h

/-- A write succeeds exactly when it fits the block. -/
theorem store_eq_ok_iff {b bs : List UInt8} {pos : ℕ} :
    (∃ b', store b pos bs = .ok b') ↔ pos + bs.length ≤ b.length := by
  rw [store]
  split_ifs with hfit <;> simp [hfit]

theorem length_store {b b' bs : List UInt8} {pos : ℕ} (h : store b pos bs = .ok b') :
    b'.length = b.length := by
  unfold store at h
  split_ifs at h with hfit
  rw [← Except.ok.inj h]
  simp
  omega

/-- Writing at the end of the bytes already written. -/
theorem store_append {pre rest bs : List UInt8} {pos : ℕ} (hpos : pos = pre.length)
    (h : bs.length ≤ rest.length) :
    store (pre ++ rest) pos bs = .ok (pre ++ bs ++ rest.drop bs.length) := by
  subst hpos
  have hfit : pre.length + bs.length ≤ (pre ++ rest).length := by
    rw [List.length_append]
    omega
  rw [store, if_pos hfit, List.take_left, List.drop_append, List.drop_eq_nil_of_le (by omega),
    Nat.add_sub_cancel_left, List.nil_append]

/-- A word does not change when more is written behind it. -/
theorem word_append {s t : List UInt8} {pos : ℕ} (h : pos + 4 ≤ s.length) :
    word (s ++ t) pos = word s pos := by
  rw [word, word, List.drop_append_of_le_length (by omega),
    List.take_append_of_le_length (by rw [List.length_drop]; omega)]

theorem load32_append {b : List UInt8} {pos : ℕ} (h : pos + 4 ≤ b.length) (t : List UInt8) :
    load32 (b ++ t) pos = load32 b pos := by
  rw [load32_of_le h, load32_of_le (h.trans (by simp)), word_append h]

/-! ## Reading back what lies between two parts of a block -/

/-- The bytes between a front and a rest. -/
theorem load_between {pre bs post : List UInt8} {pos n : ℕ} (hpos : pos = pre.length)
    (hn : n = bs.length) : load (pre ++ (bs ++ post)) pos n = .ok bs := by
  subst hpos hn
  rw [load_of_le (by simp), List.drop_left, List.take_left]

/-- The word between a front and a rest. -/
theorem word_between {pre post : List UInt8} {pos n : ℕ} (hpos : pos = pre.length) :
    word (pre ++ (be32 n ++ post)) pos = n % 2^32 := by
  rw [word, hpos, List.drop_left, List.take_left' (length_be32 n), beNat_be32]

theorem load32_between {pre post : List UInt8} {pos n : ℕ} (hpos : pos = pre.length) :
    load32 (pre ++ (be32 n ++ post)) pos = .ok (n % 2^32) := by
  rw [load32_of_le (by simp [hpos]), word_between hpos]

theorem load16_between {pre post : List UInt8} {pos n : ℕ} (hpos : pos = pre.length) :
    load16 (pre ++ (be16 n ++ post)) pos = .ok (n % 2^16) := by
  rw [load16, load_between hpos (length_be16 n).symm, ok_bind, beNat_be16, pure_eq_ok]

/-- A C string behind a front, before its NUL and a rest. -/
theorem loadStr_between {pre text post : List UInt8} {pos : ℕ} (hpos : pos = pre.length)
    (hnul : 0 ∉ text) : loadStr (pre ++ (text ++ 0 :: post)) pos = .ok text := by
  have htake : (text ++ 0 :: post).takeWhile (· ≠ 0) = text := by
    rw [List.takeWhile_append_of_pos fun b hb => by simpa using ne_of_mem_of_not_mem hb hnul]
    simp
  rw [loadStr_of_mem (by simp [hpos]), hpos, List.drop_left, htake]

/-- A text with a NUL is not longer when more stands behind it. -/
theorem takeWhile_append_of_mem {s : List UInt8} (h : 0 ∈ s) (t : List UInt8) :
    (s ++ t).takeWhile (· ≠ 0) = s.takeWhile (· ≠ 0) := by
  rw [List.takeWhile_append, if_neg]
  intro hlen
  have hself : s.takeWhile (· ≠ 0) = s := (List.takeWhile_prefix _).eq_of_length hlen
  have hall : (s.takeWhile (· ≠ 0)).all (· ≠ 0) = true := List.all_takeWhile
  rw [hself, List.all_eq_true] at hall
  exact absurd (hall 0 h) (by simp)

end Memory
