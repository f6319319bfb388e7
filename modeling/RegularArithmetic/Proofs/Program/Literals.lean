import RegularArithmetic.Program.Engine
import RegularArithmetic.Proofs.Expression.Parts
import RegularArithmetic.Typing.Settling

/-!
The automaton literals of an expression, as far as an evaluation can meet them. Those in the
arguments of a call, in a guard or in a domain are left out: there a formula is an error.
-/

set_option autoImplicit false

namespace RegularArithmetic

variable {P Q : Literal → Prop} {x y z : Expr}

mutual

def Expr.Literals (P : Literal → Prop) : Expr → Prop
  | ⟨f, _⟩ => f.Literals P

def Form.Literals (P : Literal → Prop) : Form → Prop
  | .automaton l => P l
  | .compare _ x y => x.Literals P ∧ y.Literals P
  | .and x y => x.Literals P ∧ y.Literals P
  | .or x y => x.Literals P ∧ y.Literals P
  | .not x => x.Literals P
  | .forSome _ _ x => x.Literals P
  | _ => True

end

mutual

theorem Expr.Literals.mono (hPQ : ∀ l, P l → Q l) : ∀ {x : Expr}, x.Literals P → x.Literals Q
  | ⟨f, _⟩, h => by
    rw [Expr.Literals] at *
    exact Form.Literals.mono hPQ h

theorem Form.Literals.mono (hPQ : ∀ l, P l → Q l) : ∀ {f : Form}, f.Literals P → f.Literals Q
  | .automaton l, h => hPQ l h
  | .compare _ _ _, h => ⟨h.1.mono hPQ, h.2.mono hPQ⟩
  | .and _ _, h => ⟨h.1.mono hPQ, h.2.mono hPQ⟩
  | .or _ _, h => ⟨h.1.mono hPQ, h.2.mono hPQ⟩
  | .not _, h => Expr.Literals.mono hPQ h
  | .forSome _ _ _, h => Expr.Literals.mono hPQ h
  | .var _, _ | .num _, _ | .truth _, _ | .arith .., _ | .call _, _ | .index .., _
  | .rangeEq .., _ => trivial

end

theorem Expr.literals_settle {d : Domain} (h : x.Literals P) : (x.settle d).Literals P := by
  obtain ⟨f, e⟩ := x
  rw [Expr.settle]
  split
  · cases f <;> exact h
  · exact h

mutual

theorem Expr.literals_close : ∀ {x : Expr}, x.Literals P → x.close.Literals P
  | ⟨f, none⟩, h | ⟨f, some .any⟩, h | ⟨f, some .pending⟩, h | ⟨f, some (.restricted _)⟩, h => by
    have hf := Form.literals_close (f := f) h
    exact hf

theorem Form.literals_close : ∀ {f : Form}, f.Literals P → f.close.Literals P
  | .automaton _, h => h
  | .compare _ _ _, h => ⟨Expr.literals_close h.1, Expr.literals_close h.2⟩
  | .and _ _, h => ⟨Expr.literals_close h.1, Expr.literals_close h.2⟩
  | .or _ _, h => ⟨Expr.literals_close h.1, Expr.literals_close h.2⟩
  | .not _, h => Expr.literals_close h
  | .forSome _ _ _, h => Expr.literals_close h
  | .var _, _ | .num _, _ | .truth _, _ | .arith .., _ | .call _, _ | .index .., _
  | .rangeEq .., _ => trivial

end

theorem Call.literals_toExpr (c : Call) : c.toExpr.Literals P := trivial

theorem literals_conjoin (cs : List Call) (h : x.Literals P) :
    (Program.conjoin cs x).Literals P := by
  induction cs with
  | nil => exact h
  | cons c cs ih => exact ⟨c.literals_toExpr, ih⟩

theorem literals_simplerAnd? (hx : x.Literals P) (hy : y.Literals P)
    (h : simplerAnd? x y = some z) : z.Literals P := by
  unfold simplerAnd? at h
  split at h <;> first | (cases h; first | exact hx | exact hy | trivial) | skip
  split at h <;> cases h
  exact hx

theorem literals_simplerOr? (hx : x.Literals P) (hy : y.Literals P)
    (h : simplerOr? x y = some z) : z.Literals P := by
  unfold simplerOr? at h
  split at h <;> first | (cases h; first | exact hx | exact hy | trivial) | skip
  split at h <;> cases h
  exact hx

theorem Expr.literals_simpler? (hx : x.Literals P) (h : x.simpler? = some y) : y.Literals P := by
  obtain ⟨f, d⟩ := x
  unfold Expr.simpler? at h
  split at h
  · obtain ⟨n, -, rfl⟩ := Option.map_eq_some_iff.1 h
    trivial
  · rename_i u hform
    obtain rfl : f = .not u := hform
    obtain ⟨g, e⟩ := u
    dsimp only at h
    split at h <;> cases h
    · exact hx
    · trivial
  · rename_i u v hform
    obtain rfl : f = .and u v := hform
    exact literals_simplerAnd? hx.1 hx.2 h
  · rename_i u v hform
    obtain rfl : f = .or u v := hform
    exact literals_simplerOr? hx.1 hx.2 h
  · cases h

theorem Expr.literals_step (hx : x.Literals P) (n : Nat) : (x.step n).1.Literals P := by
  rcases x.step_cases n with hsome | ⟨-, hidle⟩
  · exact literals_simpler? hx hsome
  · rwa [hidle]

mutual

/-- Simplifying brings no other literals in. -/
theorem Expr.literals_simplify : ∀ {x : Expr} (n : Nat), x.Literals P → (x.simplify n).1.Literals P
  | ⟨f, d⟩, n, h =>
    have hf : Expr.Literals P ⟨(f.simplify n).1, d⟩ := Form.literals_simplify n h
    Expr.literals_step hf _

theorem Form.literals_simplify : ∀ {f : Form} (n : Nat), f.Literals P → (f.simplify n).1.Literals P
  | .automaton _, _, h => h
  | .compare _ x _, n, h =>
    ⟨Expr.literals_simplify n h.1, Expr.literals_simplify (x.simplify n).2 h.2⟩
  | .and x _, n, h => ⟨Expr.literals_simplify n h.1, Expr.literals_simplify (x.simplify n).2 h.2⟩
  | .or x _, n, h => ⟨Expr.literals_simplify n h.1, Expr.literals_simplify (x.simplify n).2 h.2⟩
  | .not _, n, h => Expr.literals_simplify n h
  | .forSome _ _ _, n, h => Expr.literals_simplify n h
  | .var _, _, _ | .num _, _, _ | .truth _, _, _ | .arith .., _, _ | .call _, _, _
  | .index .., _, _ | .rangeEq .., _, _ => trivial

end

end RegularArithmetic
