/-!
Sorting by insertion. Elements that may stand in either order keep the one they have.
-/

set_option autoImplicit false

namespace RegularArithmetic

variable {α : Type} (le : α → α → Bool)

/-- Puts an element before the first one that it may precede. -/
def insertInOrder (a : α) : List α → List α
  | [] => [a]
  | b :: l => if le a b then a :: b :: l else b :: insertInOrder a l

/-- The elements of a list, each before those that it must precede. -/
def inOrder (l : List α) : List α := l.foldr (insertInOrder le) []

end RegularArithmetic
