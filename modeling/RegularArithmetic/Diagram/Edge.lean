import RegularArithmetic.Store.Pairing

/-!
Edges of decision diagrams. An edge names a stored node by its number, and its sign says
whether the node's function or the opposite one is meant.
-/

set_option autoImplicit false

namespace RegularArithmetic.Diagram

/-- The magnitude is the number of the node, a negative sign stands for the negated function. -/
structure Edge where
  code : Int
  deriving DecidableEq, Repr, Inhabited

namespace Edge

def toNode (i : Nat) : Edge := ⟨i⟩

def ofWord (w : Nat) : Edge := ⟨Int.bmod w (Nat.pow 2 32)⟩

/-- The least 32-bit number. -/
def leastWord : Int := -2147483648

/-- The constant true: the terminal is node 1. -/
def one : Edge := ⟨1⟩

/-- The constant false. -/
def zero : Edge := ⟨-1⟩

/-- The number of the node that the edge names. -/
def index (e : Edge) : Nat := e.code.natAbs

def isNegated (e : Edge) : Bool := e.code < 0

instance : Neg Edge := ⟨fun e => ⟨-e.code⟩⟩

def negWord? (e : Edge) : Option Edge :=
  if e.code = leastWord then none else some (-e)

def isTerminal (e : Edge) : Bool := e = one ∨ e = zero

/-- The edges counted without gaps: twice the node's number, plus one for a negated edge. -/
def literal (e : Edge) : Nat := 2 * e.index + e.isNegated.toNat

instance : Store.Keyed Edge := ⟨fun e => UInt64.ofNat e.literal⟩

/-- A negated edge is written with `~` in front. -/
def text (e : Edge) : String :=
  (if e.isNegated then "~@" else "@") ++ toString e.index

end Edge

end RegularArithmetic.Diagram
