import RegularArithmetic.Automaton.Basic

/-!
Formulas and integer expressions. Both are expressions, whose form says which of the two they
are. Every expression can be annotated with the domain that its value belongs to.
-/

set_option autoImplicit false

namespace RegularArithmetic

inductive Operation where
  | add | sub | mul | div
  deriving DecidableEq, Repr

inductive Comparison where
  | equal | less
  deriving DecidableEq, Repr

/-- An automaton used as a formula, with the propositions that stand for its variables. Literals
that were made separately have different stamps. -/
structure Literal where
  name : String
  stamp : Nat
  automaton : Automaton
  vars : List (String × Nat)
  deriving DecidableEq

mutual

/-- A form, and the domain of its value as far as it is known. -/
structure Expr where
  form : Form
  domain : Option Domain

/-- The shape of an expression. `index w i` is "`w` holds of `i`", and `rangeEq w s e w' s' e'`
compares what `w` says from `s` up to `e` with what `w'` says from `s'` up to `e'`. -/
inductive Form where
  | var (name : String)
  | num (n : Nat)
  | truth (b : Bool)
  | arith (op : Operation) (x y : Expr)
  | compare (op : Comparison) (x y : Expr)
  | and (x y : Expr)
  | or (x y : Expr)
  | not (x : Expr)
  | forSome (v : String) (guard : Option Call) (body : Expr)
  | call (c : Call)
  | automaton (l : Literal)
  | index (word : String) (i : Expr)
  | rangeEq (word : String) (start stop : Expr) (word' : String) (start' stop' : Expr)

/-- A named relation with its arguments. -/
structure Call where
  name : String
  args : List Expr

/-- The values that an expression may take: all numbers, those not yet found out, or those for
which a call holds, in which the value itself is written `__self`. -/
inductive Domain where
  | any
  | pending
  | restricted (c : Call)

end

instance : Inhabited Form := ⟨.truth false⟩

instance : Inhabited Expr := ⟨⟨default, none⟩⟩

mutual

def Expr.beq : Expr → Expr → Bool
  | ⟨f, d⟩, ⟨f', d'⟩ => f.beq f' && beqDomain d d'

def Form.beq : Form → Form → Bool
  | .var a, .var a' => a = a'
  | .num n, .num n' => n = n'
  | .truth b, .truth b' => b = b'
  | .arith o x y, .arith o' x' y' => o = o' && x.beq x' && y.beq y'
  | .compare o x y, .compare o' x' y' => o = o' && x.beq x' && y.beq y'
  | .and x y, .and x' y' => x.beq x' && y.beq y'
  | .or x y, .or x' y' => x.beq x' && y.beq y'
  | .not x, .not x' => x.beq x'
  | .forSome v g x, .forSome v' g' x' => v = v' && beqGuard g g' && x.beq x'
  | .call c, .call c' => c.beq c'
  | .automaton l, .automaton l' => l = l'
  | .index w i, .index w' i' => w = w' && i.beq i'
  | .rangeEq w s e u t f, .rangeEq w' s' e' u' t' f' =>
    w = w' && s.beq s' && e.beq e' && u = u' && t.beq t' && f.beq f'
  | _, _ => false

def Call.beq : Call → Call → Bool
  | ⟨n, xs⟩, ⟨n', xs'⟩ => n = n' && beqArgs xs xs'

def Domain.beq : Domain → Domain → Bool
  | .any, .any => true
  | .pending, .pending => true
  | .restricted c, .restricted c' => c.beq c'
  | _, _ => false

def beqArgs : List Expr → List Expr → Bool
  | [], [] => true
  | x :: xs, x' :: xs' => x.beq x' && beqArgs xs xs'
  | _, _ => false

def beqGuard : Option Call → Option Call → Bool
  | none, none => true
  | some c, some c' => c.beq c'
  | _, _ => false

def beqDomain : Option Domain → Option Domain → Bool
  | none, none => true
  | some d, some d' => d.beq d'
  | _, _ => false

end

mutual

theorem Expr.beq_iff : ∀ x y : Expr, x.beq y = true ↔ x = y
  | ⟨f, d⟩, ⟨f', d'⟩ => by
    simp [Expr.beq, Form.beq_iff f f', beqDomain_iff d d']

theorem Form.beq_iff : ∀ f g : Form, f.beq g = true ↔ f = g
  | .var a, g => by cases g <;> simp [Form.beq]
  | .num n, g => by cases g <;> simp [Form.beq]
  | .truth b, g => by cases g <;> simp [Form.beq]
  | .arith o x y, g => by
    cases g <;> simp [Form.beq, Expr.beq_iff x, Expr.beq_iff y, and_assoc]
  | .compare o x y, g => by
    cases g <;> simp [Form.beq, Expr.beq_iff x, Expr.beq_iff y, and_assoc]
  | .and x y, g => by cases g <;> simp [Form.beq, Expr.beq_iff x, Expr.beq_iff y]
  | .or x y, g => by cases g <;> simp [Form.beq, Expr.beq_iff x, Expr.beq_iff y]
  | .not x, g => by cases g <;> simp [Form.beq, Expr.beq_iff x]
  | .forSome v c x, g => by
    cases g <;> simp [Form.beq, beqGuard_iff c, Expr.beq_iff x, and_assoc]
  | .call c, g => by cases g <;> simp [Form.beq, Call.beq_iff c]
  | .automaton l, g => by cases g <;> simp [Form.beq]
  | .index w i, g => by cases g <;> simp [Form.beq, Expr.beq_iff i]
  | .rangeEq w s e u t f, g => by
    cases g <;> simp [Form.beq, Expr.beq_iff s, Expr.beq_iff e, Expr.beq_iff t, Expr.beq_iff f,
      and_assoc]

theorem Call.beq_iff : ∀ c d : Call, c.beq d = true ↔ c = d
  | ⟨n, xs⟩, ⟨n', xs'⟩ => by simp [Call.beq, beqArgs_iff xs xs']

theorem Domain.beq_iff : ∀ d e : Domain, d.beq e = true ↔ d = e
  | .any, e => by cases e <;> simp [Domain.beq]
  | .pending, e => by cases e <;> simp [Domain.beq]
  | .restricted c, e => by cases e <;> simp [Domain.beq, Call.beq_iff c]

theorem beqArgs_iff : ∀ xs ys : List Expr, beqArgs xs ys = true ↔ xs = ys
  | [], ys => by cases ys <;> simp [beqArgs]
  | x :: xs, ys => by cases ys <;> simp [beqArgs, Expr.beq_iff x, beqArgs_iff xs]

theorem beqGuard_iff : ∀ g h : Option Call, beqGuard g h = true ↔ g = h
  | none, h => by cases h <;> simp [beqGuard]
  | some c, h => by cases h <;> simp [beqGuard, Call.beq_iff c]

theorem beqDomain_iff : ∀ d e : Option Domain, beqDomain d e = true ↔ d = e
  | none, e => by cases e <;> simp [beqDomain]
  | some c, e => by cases e <;> simp [beqDomain, Domain.beq_iff c]

end

instance : DecidableEq Expr := fun x y => decidable_of_iff _ (Expr.beq_iff x y)

instance : DecidableEq Call := fun c d => decidable_of_iff _ (Call.beq_iff c d)

instance : DecidableEq Domain := fun d e => decidable_of_iff _ (Domain.beq_iff d e)

namespace Expr

/-- A formula is true or false; the other expressions stand for numbers. -/
def isFormula (x : Expr) : Bool :=
  match x.form with
  | .var _ | .num _ | .arith .. => false
  | _ => true

def withDomain (x : Expr) (d : Domain) : Expr := { x with domain := some d }

end Expr

end RegularArithmetic
