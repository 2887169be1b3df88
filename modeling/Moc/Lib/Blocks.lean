import Mathlib.Data.List.Induction
import Mathlib.Data.List.Nodup
import Mathlib.Data.Nat.Notation

/-!
# Blocks in a stream

Several writers append to one stream, each the items of its own blocks. An item says which block it
belongs to and where in it. The stream is untorn when it is a row of whole blocks and then part of
another one. `front` reads a stream from its start and knows at each item whether it is untorn so far
and which block is open, and `untorn_iff` says that this is all there is to know.
-/

namespace Blocks

variable {κ : Type}

/-- `n` items of the block `k`, from the item `c` on. -/
def piece (k : κ) (c n : ℕ) : List (κ × ℕ) := (List.range' c n).map (Prod.mk k)

@[simp] theorem piece_zero (k : κ) (c : ℕ) : piece k c 0 = [] := rfl

theorem piece_succ (k : κ) (c n : ℕ) : piece k c (n + 1) = (k, c) :: piece k (c + 1) n := rfl

theorem mem_piece {k m : κ} {c n i : ℕ} : (m, i) ∈ piece k c n ↔ m = k ∧ c ≤ i ∧ i < c + n := by
  rw [piece, List.mem_map]
  constructor
  · rintro ⟨j, hj, h⟩
    obtain ⟨rfl, rfl⟩ := Prod.mk.inj h
    exact ⟨rfl, List.mem_range'_1.mp hj⟩
  · rintro ⟨rfl, hi⟩
    exact ⟨i, List.mem_range'_1.mpr hi, rfl⟩

theorem nodup_piece (k : κ) (c n : ℕ) : (piece k c n).Nodup :=
  (List.nodup_range').map fun _ _ h => (Prod.mk.inj h).2

/-- A piece and the next one are one piece. -/
theorem piece_append (k : κ) (c m n : ℕ) : piece k c m ++ piece k (c + m) n = piece k c (m + n) := by
  rw [piece, piece, piece, ← List.map_append, List.range'_append_1]

variable (size : κ → ℕ)

/-- All items of a block. -/
def block (k : κ) : List (κ × ℕ) := piece k 0 (size k)

/-- Whole blocks, none of them twice, and then part of another one or nothing. -/
def Untorn (l : List (κ × ℕ)) : Prop :=
  ∃ ks : List κ, ks.Nodup ∧ (l = ks.flatMap (block size) ∨
    ∃ k j, k ∉ ks ∧ 0 < j ∧ j < size k ∧ l = ks.flatMap (block size) ++ piece k 0 j)

/-- What lies at the end of a stream. -/
inductive Front (κ : Type) where
  /-- Every block is whole. -/
  | boundary
  /-- The block `k` is open, with `j` items. -/
  | inside (k : κ) (j : ℕ)
  | torn
  deriving DecidableEq

/-- The end of a stream whose last block is `k` with `j` items. -/
def after (k : κ) (j : ℕ) : Front κ := if j = size k then .boundary else .inside k j

variable [DecidableEq κ]

/-- The end of a stream after one more item. -/
def Front.next : Front κ → κ × ℕ → Front κ
  | .boundary, (k, i) => if i = 0 then after size k 1 else .torn
  | .inside m j, (k, i) => if k = m ∧ i = j then after size k (j + 1) else .torn
  | .torn, _ => .torn

def front (l : List (κ × ℕ)) : Front κ := l.foldl (Front.next size) .boundary

theorem front_append (l l' : List (κ × ℕ)) :
    front size (l ++ l') = l'.foldl (Front.next size) (front size l) := List.foldl_append

theorem foldl_torn (l : List (κ × ℕ)) : l.foldl (Front.next size) .torn = .torn := by
  induction l with
  | nil => rfl
  | cons x l ih => exact ih

/-! ## One more piece -/

section
variable {size} {l : List (κ × ℕ)} {k : κ} {c n : ℕ}

theorem foldl_piece (hn : 0 < n) (hle : c + n ≤ size k) :
    (piece k c n).foldl (Front.next size) (.inside k c) = after size k (c + n) := by
  induction n generalizing c with
  | zero => omega
  | succ n ih =>
    have hnext : Front.next size (.inside k c) (k, c) = after size k (c + 1) := if_pos ⟨rfl, rfl⟩
    rw [piece_succ, List.foldl_cons, hnext]
    match n with
    | 0 => rfl
    | n + 1 =>
      have hopen : after size k (c + 1) = .inside k (c + 1) := if_neg (by omega)
      rw [hopen, ih (by omega) (by omega)]
      congr 1
      omega

/-- The next piece of the open block. -/
theorem front_append_inside (hfront : front size l = .inside k c) (hn : 0 < n)
    (hle : c + n ≤ size k) : front size (l ++ piece k c n) = after size k (c + n) := by
  rw [front_append, hfront, foldl_piece hn hle]

/-- The first piece of a block behind whole ones. -/
theorem front_append_boundary (hfront : front size l = .boundary) (hn : 0 < n) (hle : n ≤ size k) :
    front size (l ++ piece k 0 n) = after size k n := by
  have hfirst : Front.next size .boundary (k, 0) = Front.next size (.inside k 0) (k, 0) := by
    simp [Front.next]
  obtain ⟨n, rfl⟩ : ∃ m, n = m + 1 := ⟨n - 1, by omega⟩
  rw [front_append, hfront, piece_succ, List.foldl_cons, hfirst, ← List.foldl_cons, ← piece_succ,
    foldl_piece hn (by omega), Nat.zero_add]

/-- A piece that neither goes on with the open block nor starts one behind whole ones. -/
theorem front_append_torn (hinside : front size l ≠ .inside k c)
    (hboundary : front size l = .boundary → c ≠ 0) (hn : 0 < n) :
    front size (l ++ piece k c n) = .torn := by
  obtain ⟨n, rfl⟩ : ∃ m, n = m + 1 := ⟨n - 1, by omega⟩
  have hnext : Front.next size (front size l) (k, c) = .torn := by
    cases hf : front size l with
    | boundary => exact if_neg (hboundary hf)
    | inside m j =>
      refine if_neg ?_
      rintro ⟨rfl, rfl⟩
      exact hinside hf
    | torn => rfl
  rw [front_append, piece_succ, List.foldl_cons, hnext, foldl_torn]

end

/-! ## What the front says -/

section
variable {size} {l : List (κ × ℕ)}

/-- A stream that ends at a boundary or in an open block is a row of whole blocks and what the open
block has. -/
theorem front_shape (hpos : ∀ k, 0 < size k) (l : List (κ × ℕ)) :
    match front size l with
    | .boundary => ∃ ks : List κ, l = ks.flatMap (block size)
    | .inside k j => ∃ ks : List κ, 0 < j ∧ j < size k ∧
        l = ks.flatMap (block size) ++ piece k 0 j
    | .torn => True := by
  induction l using List.reverseRecOn with
  | nil => exact ⟨[], rfl⟩
  | append_singleton l x ih =>
    obtain ⟨k, i⟩ := x
    rw [front_append, List.foldl_cons, List.foldl_nil]
    -- An item that goes on where the block `k` ends so far.
    have hitem : ∀ (ks : List κ) (j : ℕ), j < size k → l = ks.flatMap (block size) ++ piece k 0 j →
        match after size k (j + 1) with
        | .boundary => ∃ ks : List κ, l ++ [(k, j)] = ks.flatMap (block size)
        | .inside k' j' => ∃ ks : List κ, 0 < j' ∧ j' < size k' ∧
            l ++ [(k, j)] = ks.flatMap (block size) ++ piece k' 0 j'
        | .torn => True := by
      intro ks j hj hl
      have hpiece : l ++ [(k, j)] = ks.flatMap (block size) ++ piece k 0 (j + 1) := by
        rw [hl, ← piece_append, Nat.zero_add, List.append_assoc]
        rfl
      rw [after]
      by_cases hwhole : j + 1 = size k
      · rw [if_pos hwhole]
        refine ⟨ks ++ [k], ?_⟩
        rw [hpiece, hwhole, List.flatMap_append, List.flatMap_singleton, block]
      · rw [if_neg hwhole]
        exact ⟨ks, by omega, by omega, hpiece⟩
    cases hf : front size l with
    | torn => trivial
    | boundary =>
      rw [hf] at ih
      obtain ⟨ks, hl⟩ := ih
      rw [Front.next]
      by_cases hi : i = 0
      · rw [if_pos hi, hi]
        exact hitem ks 0 (hpos k) (by rw [hl, piece_zero, List.append_nil])
      · rw [if_neg hi]
        trivial
    | inside m j =>
      rw [hf] at ih
      obtain ⟨ks, -, hj, hl⟩ := ih
      rw [Front.next]
      by_cases hnext : k = m ∧ i = j
      · obtain ⟨rfl, rfl⟩ := hnext
        rw [if_pos ⟨rfl, rfl⟩]
        exact hitem ks i hj hl
      · rw [if_neg hnext]
        trivial

theorem front_flatMap (hpos : ∀ k, 0 < size k) (ks : List κ) :
    front size (ks.flatMap (block size)) = .boundary := by
  induction ks using List.reverseRecOn with
  | nil => rfl
  | append_singleton ks k ih =>
    rw [List.flatMap_append, List.flatMap_singleton, block,
      front_append_boundary ih (hpos k) (Nat.le_refl _)]
    exact if_pos rfl

omit [DecidableEq κ] in
theorem nodup_flatMap_block (hpos : ∀ k, 0 < size k) {ks : List κ} :
    (ks.flatMap (block size)).Nodup ↔ ks.Nodup := by
  rw [List.nodup_flatMap]
  constructor
  · rintro ⟨-, hdisjoint⟩
    refine hdisjoint.imp ?_
    rintro k m hkm rfl
    exact hkm (mem_piece.mpr ⟨rfl, Nat.le_refl 0, by simpa using hpos k⟩)
      (mem_piece.mpr ⟨rfl, Nat.le_refl 0, by simpa using hpos k⟩)
  · intro hks
    refine ⟨fun k _ => nodup_piece k 0 _, hks.imp ?_⟩
    rintro k m hkm ⟨k', i⟩ hk hm
    exact hkm ((mem_piece.mp hk).1.symm.trans (mem_piece.mp hm).1)

omit [DecidableEq κ] in
/-- The first item of an open block is not one of a whole block. -/
theorem nodup_append_piece (hpos : ∀ k, 0 < size k) {ks : List κ} {k : κ} {j : ℕ} (hj : 0 < j) :
    (ks.flatMap (block size) ++ piece k 0 j).Nodup ↔ ks.Nodup ∧ k ∉ ks := by
  rw [List.nodup_append', nodup_flatMap_block hpos]
  constructor
  · rintro ⟨hks, -, hdisjoint⟩
    refine ⟨hks, fun hk => hdisjoint (a := (k, 0)) ?_ ?_⟩
    · exact List.mem_flatMap.mpr ⟨k, hk, mem_piece.mpr ⟨rfl, Nat.le_refl 0, by simpa using hpos k⟩⟩
    · exact mem_piece.mpr ⟨rfl, Nat.le_refl 0, by omega⟩
  · rintro ⟨hks, hk⟩
    refine ⟨hks, nodup_piece k 0 j, ?_⟩
    rintro ⟨m, i⟩ hm hpiece
    obtain ⟨m', hm', hblock⟩ := List.mem_flatMap.mp hm
    obtain rfl := (mem_piece.mp hblock).1
    obtain rfl := (mem_piece.mp hpiece).1
    exact hk hm'

/-- A stream is untorn when reading it finds no tear and no item comes twice. -/
theorem untorn_iff (hpos : ∀ k, 0 < size k) : Untorn size l ↔ front size l ≠ .torn ∧ l.Nodup := by
  constructor
  · rintro ⟨ks, hks, rfl | ⟨k, j, hk, hj, hlt, rfl⟩⟩
    · refine ⟨?_, (nodup_flatMap_block hpos).mpr hks⟩
      rw [front_flatMap hpos]
      exact nofun
    · refine ⟨?_, (nodup_append_piece hpos hj).mpr ⟨hks, hk⟩⟩
      rw [front_append_boundary (front_flatMap hpos ks) hj (by omega), after, if_neg (by omega)]
      exact nofun
  · rintro ⟨htorn, hnodup⟩
    have hshape := front_shape hpos l
    cases hf : front size l with
    | torn => exact absurd hf htorn
    | boundary =>
      rw [hf] at hshape
      obtain ⟨ks, rfl⟩ := hshape
      exact ⟨ks, (nodup_flatMap_block hpos).mp hnodup, Or.inl rfl⟩
    | inside k j =>
      rw [hf] at hshape
      obtain ⟨ks, hj, hlt, rfl⟩ := hshape
      obtain ⟨hks, hk⟩ := (nodup_append_piece hpos hj).mp hnodup
      exact ⟨ks, hks, Or.inr ⟨k, j, hk, hj, hlt, rfl⟩⟩

/-- The items that the open block still lacks are not in the stream. -/
theorem not_mem_of_inside (hpos : ∀ k, 0 < size k) (hnodup : l.Nodup) {k : κ} {j i : ℕ}
    (hfront : front size l = .inside k j) (hi : j ≤ i) : (k, i) ∉ l := by
  have hshape := front_shape hpos l
  rw [hfront] at hshape
  obtain ⟨ks, hj, -, rfl⟩ := hshape
  obtain ⟨-, hk⟩ := (nodup_append_piece hpos hj).mp hnodup
  rw [List.mem_append, not_or]
  constructor
  · intro hmem
    obtain ⟨m, hm, hblock⟩ := List.mem_flatMap.mp hmem
    obtain rfl := (mem_piece.mp hblock).1
    exact hk hm
  · intro hpiece
    have := (mem_piece.mp hpiece).2.2
    omega

end

end Blocks
