import RegularArithmetic.Diagram.Choice

/-!
Labels of moves as text. A label is built from `t`, `f` and the numbers of propositions by `!`,
`&` and `|`, which bind in this order, and by brackets. Blanks are taken out before it is read.
-/

set_option autoImplicit false

namespace RegularArithmetic

inductive Label where
  | truth (b : Bool)
  | prop (i : Nat)
  | not (l : Label)
  | and (l m : Label)
  | or (l m : Label)
  deriving DecidableEq, Repr, Inhabited

namespace Label

/-- The function that a label denotes, over the given propositions. -/
def toDiagram (props : Array Nat) : Label → Diagram.M Diagram.Edge
  | truth b => pure (if b then .one else .zero)
  | prop i =>
    match props[i]? with
    | some p => Diagram.makeVariable p
    | none => throw .missingNode
  | not l => return -(← l.toDiagram props)
  | and l m => do Diagram.conj (← l.toDiagram props) (← m.toDiagram props)
  | or l m => do Diagram.disj (← l.toDiagram props) (← m.toDiagram props)

/-- Why reading ended, and how many characters were left then. -/
structure Stop where
  reason : String
  left : Nat
  deriving DecidableEq, Repr

/-- A label with what is left of `s` after it. -/
abbrev Part (s : List Char) := Label × { r : List Char // r.length < s.length }

/-- A longer label with what is left of `s` after it, perhaps all. -/
abbrev Extended (s : List Char) := Label × { r : List Char // r.length ≤ s.length }

theorem length_dropWhile_lt {p : Char → Bool} {s : List Char} (h : s.head?.any p) :
    (s.dropWhile p).length < s.length := by
  cases s with
  | nil => simp at h
  | cons c cs =>
    have hc : p c = true := by simpa using h
    have := (List.dropWhile_suffix p (l := cs)).length_le
    simp only [List.dropWhile_cons, hc, if_true, List.length_cons]
    omega

def parseIndex (n : Nat) (s : List Char) (h : s.head?.any Char.isDigit) :
    Except Stop (Part s) :=
  let i := (s.takeWhile Char.isDigit).foldl (fun i c => 10 * i + (c.toNat - 48)) 0
  let rest := s.dropWhile Char.isDigit
  if Nat.pow 2 64 ≤ i then .error ⟨"bad AP index", rest.length⟩
  else if n ≤ i then .error ⟨"AP index out of range", rest.length⟩
  else .ok (.prop i, ⟨rest, length_dropWhile_lt h⟩)

mutual

def parseOr (n : Nat) (s : List Char) : Except Stop (Part s) := do
  let (l, ⟨r, h⟩) ← parseAnd n s
  let (l, ⟨r', h'⟩) ← extendOr n l r
  return (l, ⟨r', Nat.lt_of_le_of_lt h' h⟩)
termination_by (s.length, 3)

def extendOr (n : Nat) (l : Label) (s : List Char) : Except Stop (Extended s) :=
  match s with
  | '|' :: s => do
    let (m, ⟨r, h⟩) ← parseAnd n s
    let (l, ⟨r', h'⟩) ← extendOr n (.or l m) r
    return (l, ⟨r', by simp only [List.length_cons]; omega⟩)
  | s => return (l, ⟨s, Nat.le_refl _⟩)
termination_by (s.length, 4)

def parseAnd (n : Nat) (s : List Char) : Except Stop (Part s) := do
  let (l, ⟨r, h⟩) ← parseNot n s
  let (l, ⟨r', h'⟩) ← extendAnd n l r
  return (l, ⟨r', Nat.lt_of_le_of_lt h' h⟩)
termination_by (s.length, 2)

def extendAnd (n : Nat) (l : Label) (s : List Char) : Except Stop (Extended s) :=
  match s with
  | '&' :: s => do
    let (m, ⟨r, h⟩) ← parseNot n s
    let (l, ⟨r', h'⟩) ← extendAnd n (.and l m) r
    return (l, ⟨r', by simp only [List.length_cons]; omega⟩)
  | s => return (l, ⟨s, Nat.le_refl _⟩)
termination_by (s.length, 4)

def parseNot (n : Nat) (s : List Char) : Except Stop (Part s) :=
  match s with
  | '!' :: s => do
    let (l, ⟨r, h⟩) ← parseNot n s
    return (.not l, ⟨r, by simp only [List.length_cons]; omega⟩)
  | s => parseAtom n s
termination_by (s.length, 1)

/-- A constant, the number of a proposition, or a label in brackets. -/
def parseAtom (n : Nat) (s : List Char) : Except Stop (Part s) :=
  match s with
  | 't' :: s => return (.truth true, ⟨s, by simp⟩)
  | 'f' :: s => return (.truth false, ⟨s, by simp⟩)
  | '(' :: s => do
    let (l, ⟨r, h⟩) ← parseOr n s
    if r.head? = some ')' then
      return (l, ⟨r.tail, by simp only [List.length_tail, List.length_cons]; omega⟩)
    else throw ⟨"expected `)`", r.length⟩
  | s => if h : s.head?.any Char.isDigit then parseIndex n s h
    else throw ⟨"unexpected character", s.length⟩
termination_by (s.length, 0)

end

/-- Reads a label over `n` propositions that fills the whole text. -/
def parse (n : Nat) (s : List Char) : Except Stop Label := do
  let (l, ⟨r, _⟩) ← parseOr n s
  if r = [] then return l else throw ⟨"trailing characters in label", r.length⟩

end Label

end RegularArithmetic
