import Mathlib.Data.Int.Notation
import Mathlib.Data.List.Sort

/-!
# Sorting by a comparison function

What the C library promises of `qsort`: for a comparison that is a total preorder, the array is
permuted so that no element compares greater than a later one. Elements that compare equal come in
any order, so the array as a whole is not determined; the keys by which the elements are compared are
(`map_key_eq`).
-/

namespace Sorting

variable {α κ : Type}

/-- A comparison that orders the elements: its sign is that of a total preorder. -/
structure Consistent (cmp : α → α → ℤ) : Prop where
  swap : ∀ a b, 0 < cmp a b ↔ cmp b a < 0
  trans : ∀ a b c, cmp a b ≤ 0 → cmp b c ≤ 0 → cmp a c ≤ 0

/-- A comparison of keys is consistent. -/
theorem Consistent.of_key [LinearOrder κ] {cmp : α → α → ℤ} {key : α → κ}
    (hle : ∀ a b, cmp a b ≤ 0 ↔ key a ≤ key b) (hlt : ∀ a b, cmp a b < 0 ↔ key a < key b) :
    Consistent cmp where
  swap a b := by rw [hlt, ← not_le, ← not_le, hle]
  trans a b c hab hbc := (hle a c).mpr (((hle a b).mp hab).trans ((hle b c).mp hbc))

/-- A `qsort`, for every consistent comparison. -/
structure Qsort (α : Type) where
  sort : (α → α → ℤ) → List α → List α
  perm : ∀ {cmp}, Consistent cmp → ∀ l, (sort cmp l).Perm l
  sorted : ∀ {cmp}, Consistent cmp → ∀ l, (sort cmp l).Pairwise fun a b => cmp a b ≤ 0

/-- Insertion sort is one. -/
def Qsort.insertion : Qsort α where
  sort cmp l := l.insertionSort fun a b => cmp a b ≤ 0
  perm _ l := List.perm_insertionSort _ l
  sorted {cmp} h l := by
    have htotal : Std.Total fun a b => cmp a b ≤ 0 := ⟨fun a b => by
      rcases le_or_gt (cmp a b) 0 with hle | hgt
      · exact .inl hle
      · exact .inr ((h.swap a b).mp hgt).le⟩
    have htrans : IsTrans α fun a b => cmp a b ≤ 0 := ⟨h.trans⟩
    exact List.pairwise_insertionSort _ l

/-- Two sorted arrays with the same keys have them in the same places. -/
theorem map_key_eq [LinearOrder κ] {key : α → κ} {l l' : List α}
    (hl : l.Pairwise fun a b => key a ≤ key b) (hl' : l'.Pairwise fun a b => key a ≤ key b)
    (h : (l.map key).Perm (l'.map key)) : l.map key = l'.map key :=
  h.eq_of_pairwise' (List.pairwise_map.mpr hl) (List.pairwise_map.mpr hl')

end Sorting
