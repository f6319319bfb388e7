import RegularArithmetic.Store.Sorting
import Mathlib.Data.List.Sort

/-!
Sorting by insertion permutes a list, and leaves it in order where the order is a total one.
-/

set_option autoImplicit false

namespace RegularArithmetic

variable {α : Type} (le : α → α → Bool)

theorem insertInOrder_eq_orderedInsert (a : α) :
    ∀ l : List α, insertInOrder le a l = l.orderedInsert (le · ·) a
  | [] => rfl
  | b :: l => by rw [insertInOrder, List.orderedInsert_cons, insertInOrder_eq_orderedInsert a l]

theorem inOrder_eq_insertionSort : ∀ l : List α, inOrder le l = l.insertionSort (le · ·)
  | [] => rfl
  | a :: l => by
    have ih : l.foldr (insertInOrder le) [] = l.insertionSort (le · ·) :=
      inOrder_eq_insertionSort l
    rw [inOrder, List.foldr_cons, ih, List.insertionSort_cons, insertInOrder_eq_orderedInsert]

theorem perm_inOrder (l : List α) : (inOrder le l).Perm l :=
  inOrder_eq_insertionSort le l ▸ List.perm_insertionSort (le · ·) l

theorem mem_inOrder {l : List α} {a : α} : a ∈ inOrder le l ↔ a ∈ l :=
  (perm_inOrder le l).mem_iff

theorem pairwise_inOrder (htotal : ∀ a b, le a b = true ∨ le b a = true)
    (htrans : ∀ a b c, le a b = true → le b c = true → le a c = true) (l : List α) :
    (inOrder le l).Pairwise (le · ·) := by
  have : Std.Total fun a b => le a b = true := ⟨htotal⟩
  have : IsTrans α fun a b => le a b = true := ⟨htrans⟩
  rw [inOrder_eq_insertionSort]
  exact List.pairwise_insertionSort (le · ·) l

end RegularArithmetic
