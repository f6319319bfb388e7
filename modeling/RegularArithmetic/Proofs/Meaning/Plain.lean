import RegularArithmetic.Proofs.Binary
import RegularArithmetic.Proofs.Meaning.Limits

/-!
Plain formulas are built from integer expressions, comparisons, calls, connectives and quantifiers
without guards, and their parts are in no restricted domain. They speak of numbers alone, however
long the word is that these are written in.
-/

set_option autoImplicit false

namespace RegularArithmetic

open Operand (Joined)

/-- What the names of relations say of numbers. -/
abbrev Relations := String → List Nat → Prop

def IsOwn (v : String) : Prop := ¬reservedStart.toList <+: v.toList

instance (v : String) : Decidable (IsOwn v) :=
  inferInstanceAs (Decidable ¬reservedStart.toList <+: v.toList)

/-- Annotations that restrict nothing. -/
def unrestricted : Set (Option Domain) := {none, some .any, some .pending}

/-- Annotations that restrict nothing and leave nothing open. -/
def settledOpen : Set (Option Domain) := {none, some .any}

namespace Operation

/-- The result of the operation on numbers: there is none below zero, and none of a division
that leaves a rest. -/
def result? : Operation → Nat → Nat → Option Nat
  | add, a, b => some (a + b)
  | sub, a, b => if b ≤ a then some (a - b) else none
  | mul, a, b => some (a * b)
  | div, a, b => if b ≠ 0 ∧ a % b = 0 then some (a / b) else none

end Operation

namespace Comparison

def Test : Comparison → Nat → Nat → Prop
  | equal, a, b => a = b
  | less, a, b => a < b

end Comparison

mutual

/-- The number that an integer expression stands for. Without a value of some operand there is
none, but a product with the constant zero is zero. -/
def Expr.number : Expr → Valuation → Option Nat
  | ⟨f, _⟩, τ => f.number τ

def Form.number : Form → Valuation → Option Nat
  | .var v, τ => some (τ v)
  | .num n, _ => some n
  | .arith op x y, τ =>
    if op = .mul ∧ (x.value? = some 0 ∨ y.value? = some 0) then some 0
    else do op.result? (← x.number τ) (← y.number τ)
  | _, _ => none

end

section

variable (Γ : Relations)

mutual

/-- The formula is true of the numbers that its variables stand for. Comparisons and calls are
false where an operand has no value. -/
def Expr.Satisfied : Expr → Valuation → Prop
  | ⟨f, _⟩, τ => f.Satisfied τ

def Form.Satisfied : Form → Valuation → Prop
  | .truth b, _ => b = true
  | .and x y, τ => x.Satisfied τ ∧ y.Satisfied τ
  | .or x y, τ => x.Satisfied τ ∨ y.Satisfied τ
  | .not x, τ => ¬x.Satisfied τ
  | .forSome v _ x, τ => ∃ a, x.Satisfied (Function.update τ v a)
  | .call c, τ => ∃ as, List.Forall₂ (fun x a => x.number τ = some a) c.args as ∧ Γ c.name as
  | .index w i, τ => ∃ a, i.number τ = some a ∧ Γ w [a]
  | .compare op x y, τ =>
    match op, x.isFormula, y.isFormula with
    | op, false, false => ∃ a b, x.number τ = some a ∧ y.number τ = some b ∧ op.Test a b
    | .equal, true, true => x.Satisfied τ ↔ y.Satisfied τ
    | _, _, _ => False
  | _, _ => False

end

end

section

variable (A : Set (Option Domain)) (N : Set String)

mutual

/-- The expression is built from these annotations and names of relations; its variables are the
user's own. -/
def Expr.IsPlain : Expr → Prop
  | ⟨f, d⟩ => d ∈ A ∧ f.IsPlain

def Form.IsPlain : Form → Prop
  | .var v => IsOwn v
  | .num _ => True
  | .truth _ => True
  | .arith _ x y => (x.isFormula = false ∧ x.IsPlain) ∧ y.isFormula = false ∧ y.IsPlain
  | .compare _ x y => x.IsPlain ∧ y.IsPlain
  | .and x y => (x.isFormula = true ∧ x.IsPlain) ∧ y.isFormula = true ∧ y.IsPlain
  | .or x y => (x.isFormula = true ∧ x.IsPlain) ∧ y.isFormula = true ∧ y.IsPlain
  | .not x => x.isFormula = true ∧ x.IsPlain
  | .forSome v g x => IsOwn v ∧ g = none ∧ x.isFormula = true ∧ x.IsPlain
  | .call c => c.IsPlain
  | .index w i => w ∈ N ∧ i.isFormula = false ∧ i.IsPlain
  | .automaton _ => False
  | .rangeEq .. => False

def Call.IsPlain : Call → Prop
  | ⟨name, xs⟩ => name ∈ N ∧ plainArgs xs

def plainArgs : List Expr → Prop
  | [] => True
  | x :: xs => (x.isFormula = false ∧ x.IsPlain) ∧ plainArgs xs

end

end

end RegularArithmetic
