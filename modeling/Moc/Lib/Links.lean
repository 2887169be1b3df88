import Mathlib.Data.List.Basic
import Mathlib.Logic.Function.Basic

/-!
# Singly linked lists

The cells of a linked list are reached from a pointer by following one field, which is a map from
addresses to pointers; a pointer is an address or NULL (`none`). `Follows next a l` says that from
`a` exactly the cells of `l` are reached, in order, before NULL. A cell is then in the list at most
once, and a write to a cell outside the list leaves it as it is.
-/

namespace Links

variable {α : Type}

/-- From the pointer `a`, following `next` lists `l`. -/
def Follows (next : α → Option α) : Option α → List α → Prop
  | a, [] => a = none
  | a, x :: l => a = some x ∧ Follows next (next x) l

variable {next : α → Option α} {a : Option α} {l : List α}

theorem Follows.head?_eq (h : Follows next a l) : a = l.head? := by
  cases l with
  | nil => exact h
  | cons x l => exact h.1

theorem follows_none_iff : Follows next none l ↔ l = [] := by
  cases l with
  | nil => simp [Follows]
  | cons x l => simp [Follows]

/-- A pointer has one list. -/
theorem Follows.unique {l' : List α} (h : Follows next a l) (h' : Follows next a l') : l = l' := by
  induction l generalizing a l' with
  | nil =>
    obtain rfl : a = none := h
    exact (follows_none_iff.mp h').symm
  | cons x l ih =>
    obtain ⟨rfl, hrest⟩ := h
    cases l' with
    | nil => cases h'
    | cons y l' =>
      obtain ⟨hxy, hrest'⟩ := h'
      obtain rfl := Option.some.inj hxy
      rw [ih hrest hrest']

/-- Behind each of its cells a list goes on. -/
theorem Follows.of_append {p : List α} {x : α} {s : List α} (h : Follows next a (p ++ x :: s)) :
    Follows next (some x) (x :: s) := by
  induction p generalizing a with
  | nil => exact ⟨rfl, h.2⟩
  | cons y p ih => exact ih h.2

/-- A list that ends has no cell twice: it would go on from there for ever. -/
theorem Follows.nodup (h : Follows next a l) : l.Nodup := by
  induction l generalizing a with
  | nil => exact List.nodup_nil
  | cons x l ih =>
    refine List.nodup_cons.mpr ⟨fun hmem => ?_, ih h.2⟩
    obtain ⟨p, s, rfl⟩ := List.append_of_mem hmem
    have hagain : Follows next (some x) (x :: s) := h.2.of_append
    have hlen := congrArg List.length (hagain.2.unique h.2)
    simp at hlen
    omega

/-- A list depends on the pointers in its cells only. -/
theorem follows_congr {next' : α → Option α} (h : ∀ x ∈ l, next' x = next x) :
    Follows next' a l ↔ Follows next a l := by
  induction l generalizing a with
  | nil => rfl
  | cons x l ih =>
    rw [Follows, Follows, h x List.mem_cons_self, ih fun y hy => h y (List.mem_cons_of_mem x hy)]

section
variable [DecidableEq α]

/-- Writing to a cell outside a list leaves the list. -/
theorem follows_update_iff {x : α} {b : Option α} (hx : x ∉ l) :
    Follows (Function.update next x b) a l ↔ Follows next a l :=
  follows_congr fun _ hy => Function.update_of_ne (ne_of_mem_of_not_mem hy hx) ..

/-- The cell behind another one is taken out when the pointer to it goes past it. -/
theorem Follows.bypass {p s : List α} {x y : α} (h : Follows next a (p ++ x :: y :: s)) :
    Follows (Function.update next x (next y)) a (p ++ x :: s) := by
  have hnodup := h.nodup
  induction p generalizing a with
  | nil =>
    obtain ⟨ha, -, hs⟩ := h
    refine ⟨ha, ?_⟩
    rw [Function.update_self]
    refine (follows_update_iff fun hx => ?_).mpr hs
    exact (List.nodup_cons.mp hnodup).1 (List.mem_cons_of_mem y hx)
  | cons z p ih =>
    obtain ⟨hz, hnodup⟩ := List.nodup_cons.mp hnodup
    have hne : z ≠ x := fun heq => hz (by simp [heq])
    refine ⟨h.1, ?_⟩
    rw [Function.update_of_ne hne]
    exact ih h.2 hnodup

/-- A new cell before the first one. -/
theorem Follows.push {e : α} (h : Follows next a l) (he : e ∉ l) :
    Follows (Function.update next e a) (some e) (e :: l) :=
  ⟨rfl, by rw [Function.update_self]; exact (follows_update_iff he).mpr h⟩

/-- A new cell behind the last one. -/
theorem Follows.concat {t e : α} (h : Follows next a (l ++ [t])) (he : e ∉ l ++ [t])
    (hend : next e = none) : Follows (Function.update next t (some e)) a (l ++ [t] ++ [e]) := by
  have hne : e ≠ t := fun heq => he (by simp [heq])
  induction l generalizing a with
  | nil =>
    refine ⟨h.1, ?_⟩
    rw [Function.update_self]
    exact ⟨rfl, by rw [Function.update_of_ne hne]; exact hend⟩
  | cons x l ih =>
    have hx : x ≠ t := by
      rintro rfl
      exact (List.nodup_cons.mp h.nodup).1 (by simp)
    refine ⟨h.1, ?_⟩
    rw [Function.update_of_ne hx]
    exact ih h.2 fun hmem => he (List.mem_cons_of_mem x hmem)

end

end Links
