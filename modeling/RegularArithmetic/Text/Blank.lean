/-!
Blank characters and lines. A character is blank if it is white space in the sense of Unicode;
a line ends at a line feed, and after the last one there is a further line only if it holds
something.
-/

set_option autoImplicit false

namespace RegularArithmetic.Text

def isBlank (c : Char) : Bool :=
  let n := c.toNat
  (9 ≤ n ∧ n ≤ 13) ∨ n = 0x20 ∨ n = 0x85 ∨ n = 0xA0 ∨ n = 0x1680 ∨ (0x2000 ≤ n ∧ n ≤ 0x200A) ∨
    n = 0x2028 ∨ n = 0x2029 ∨ n = 0x202F ∨ n = 0x205F ∨ n = 0x3000

def trimLeft (s : List Char) : List Char := s.dropWhile isBlank

/-- Without the blanks at both ends. -/
def trim (s : List Char) : List Char := (trimLeft (trimLeft s).reverse).reverse

/-- Cut at the first character with the property, which belongs to neither part. -/
def cut? (p : Char → Bool) (s : List Char) : Option (List Char × List Char) :=
  match s.span fun c => !p c with
  | (before, _ :: behind) => some (before, behind)
  | (_, []) => none

def strip? : List Char → List Char → Option (List Char)
  | [], s => some s
  | c :: cs, d :: ds => if c = d then strip? cs ds else none
  | _ :: _, [] => none

def pieces (s : List Char) : List (List Char) :=
  (s.foldr (fun c (ps : List (List Char)) =>
    if isBlank c then [] :: ps else
      match ps with
      | [] => [[c]]
      | p :: ps => (c :: p) :: ps) [[]]).filter (· ≠ [])

/-- The lines of a text, without their line feeds. -/
def lines (s : List Char) : List (List Char) :=
  s.foldr (fun c ls =>
    if c = '\n' then [] :: ls else
      match ls with
      | [] => [[c]]
      | l :: ls => (c :: l) :: ls) []

/-- A decimal number below `2 ^ 64`, with or without a plus sign. -/
def number? (s : List Char) : Option Nat :=
  let digits := match s with
    | '+' :: ds => ds
    | ds => ds
  if digits ≠ [] ∧ digits.all Char.isDigit then
    let n := digits.foldl (fun n c => 10 * n + (c.toNat - 48)) 0
    if n < Nat.pow 2 64 then some n else none
  else none

end RegularArithmetic.Text
