import Mathlib.Algebra.Group.Nat.Defs
import Mathlib.Data.List.Forall2
import Mathlib.Data.Set.Defs
import RegularArithmetic.Expression.Domain

/-!
What integer expressions stand for, as relations between numbers and the length of the word that
they are written in. A relation that is joined with the values of temporary variables holds if
it does in some longer word, in which those values have room.
-/

set_option autoImplicit false

namespace RegularArithmetic

/-- The numbers that an expression may stand for, given the length of the word, and whether they
are the values of a temporary variable. -/
structure Operand where
  temporary : Bool
  rel : Nat → Nat → Prop

/-- What a domain means: the numbers that it contains in words of some length, and what is
remembered of the numbers in it. -/
structure Sense where
  contains : Nat → Nat → Prop
  known : Nat → Option Operand

/-- What some names of relations and the literals say of numbers, given the length of the word, the
names that domains may be made of, and what is remembered of numbers in domains. -/
structure Interpretation where
  names : Set String
  domains : Set String
  holds : String → Nat → List Nat → Prop
  literal : Literal → Nat → List Nat → Prop
  known : Domain → Nat → Option Operand

namespace Operand

variable (I : Interpretation)

def known (a : Nat) : Operand := ⟨false, fun _ b => b = a⟩

/-- An expression without a value. -/
def undefined : Operand := ⟨true, fun _ _ => False⟩

/-- The relation holds of some values of the operands. -/
def Joined (xs : List Operand) (R : Nat → List Nat → Prop) (n : Nat) : Prop :=
  ∃ m, n ≤ m ∧ (xs.any (·.temporary) = false → m = n) ∧
    ∃ vs, List.Forall₂ (fun x a => x.rel m a ∧ a < 2 ^ m) xs vs ∧ R m vs

def Related (name : String) (x y : Operand) : Nat → Prop := Joined [x, y] (I.holds name)

def sum (x y : Operand) : Operand :=
  ⟨true, fun n c => Joined [x, y] (fun m vs => I.holds "adder" m (vs ++ [c])) n⟩

/-- The number to which the second operand is added for the first. -/
def difference (x y : Operand) : Operand :=
  ⟨true, fun n c => Joined [x, y]
    (fun m vs => ∃ a b, vs = [a, b] ∧ I.holds "adder" m [b, c, a]) n⟩

def double (x : Operand) : Operand :=
  ⟨true, fun n c => Joined [x] (fun m vs => I.holds "adder" m (vs ++ vs ++ [c])) n⟩

/-- What an operation on numbers gives that no relation of the context stands for. -/
def calculated (R : Nat → Nat → Nat → Prop) (x y : Operand) : Operand :=
  ⟨true, fun n c => Joined [x, y] (fun _ vs => ∃ a b, vs = [a, b] ∧ R a b c) n⟩

def madeZero (D : Sense) : Operand := ⟨true, fun n a => a = 0 ∧ D.contains n a⟩

/-- Zero in a domain. -/
def zero (D : Sense) : Operand := (D.known 0).getD (madeZero D)

/-- One in a domain, as it is put together: its smallest number that is not zero. -/
def madeOne (D : Sense) : Operand :=
  ⟨true, fun n a => D.contains n a ∧ ¬Related I "equal" (known a) (zero D) n ∧
    ¬∃ m ≥ n, ∃ b < 2 ^ m, D.contains m b ∧ ¬Related I "equal" (known b) (zero D) m ∧
      Related I "less" (known b) (known a) m⟩

/-- A number in a domain, as it is remembered or put together from ones. -/
def constant (D : Sense) (n : Nat) : Operand :=
  (D.known n).getD
    (if n = 0 then madeZero D
    else if n = 1 then madeOne I D
    else if n = Nat.pow 2 n.log2 then double I (constant D (n / 2))
    else sum I (constant D (Nat.pow 2 n.log2)) (constant D (n - Nat.pow 2 n.log2)))
termination_by n
decreasing_by
  · omega
  · exact Nat.lt_of_le_of_ne (Nat.log2_self_le ‹_›) (Ne.symm ‹_›)
  · have : 0 < Nat.pow 2 n.log2 := Nat.two_pow_pos _
    omega

/-- `acc` and a multiple of `power`, by doubling. -/
def multiple (acc : Option Operand) (power : Operand) (m : Nat) : Operand :=
  let added : Operand :=
    match acc with
    | none => power
    | some a => sum I a power
  if m ≤ 1 then added
  else multiple (if m % 2 = 1 then some added else acc) (double I power) (m / 2)
termination_by m

def scaled (D : Sense) (n : Nat) (x : Operand) : Operand :=
  if n = 0 then constant I D 0 else multiple I none x n

/-- The result of an operation; `value` is its value if it is constant, and `left` and `right`
are those of its operands. Products of variables and quotients that are not constant are never
evaluated. -/
def arith (D : Sense) (op : Operation) (value left right : Option Nat)
    (x y : Operand) : Operand :=
  match value, op with
  | some n, _ => constant I D n
  | none, .add => sum I x y
  | none, .sub => difference I x y
  | none, .mul =>
    match left, right with
    | some n, _ => scaled I D n y
    | none, some n => scaled I D n x
    | none, none => calculated (fun a b c => a * b = c) x y
  | none, .div => calculated (fun a b c => b ≠ 0 ∧ c * b = a) x y

end Operand

end RegularArithmetic
