import RegularArithmetic.Proofs.Expression.Parts

/-!
What simplifying leaves behind. A step at the root uncovers nothing to simplify if there was nothing
to simplify in the operands, so one pass from the operands upwards is enough, and a second one finds
nothing to do.
-/

set_option autoImplicit false

namespace RegularArithmetic

/-- The form is neither arithmetic with a constant value, nor a negation of a negation or a
constant, nor a conjunction or disjunction with a constant or twice the same operand. -/
def Form.IsReduced : Form → Prop
  | .arith op x y => (Form.arith op x y).value? = none
  | .not x => (∀ y, x.form ≠ .not y) ∧ ∀ b, x.form ≠ .truth b
  | .and x y => (∀ b, x.form ≠ .truth b) ∧ (∀ b, y.form ≠ .truth b) ∧ x ≠ y
  | .or x y => (∀ b, x.form ≠ .truth b) ∧ (∀ b, y.form ≠ .truth b) ∧ x ≠ y
  | _ => True

namespace Expr

variable {x y z : Expr} {n : Nat}

theorem simplerAnd?_eq_none_iff : simplerAnd? x y = none ↔
    (∀ b, x.form ≠ .truth b) ∧ (∀ b, y.form ≠ .truth b) ∧ x ≠ y := by
  rw [simplerAnd?]
  split <;> simp_all

theorem simplerOr?_eq_none_iff : simplerOr? x y = none ↔
    (∀ b, x.form ≠ .truth b) ∧ (∀ b, y.form ≠ .truth b) ∧ x ≠ y := by
  rw [simplerOr?]
  split <;> simp_all

theorem simpler?_eq_none_iff : x.simpler? = none ↔ x.form.IsReduced := by
  obtain ⟨f, d⟩ := x
  cases f with
  | arith op x y => exact Option.map_eq_none_iff
  | not x =>
    obtain ⟨g, e⟩ := x
    cases g <;> simp [simpler?, Form.IsReduced]
  | and x y => exact simplerAnd?_eq_none_iff
  | or x y => exact simplerOr?_eq_none_iff
  | _ => exact iff_of_true rfl trivial

def IsSimple (x : Expr) : Prop := ∀ y, IsPart y x → y.simpler? = none

theorem isSimple_iff : x.IsSimple ↔ x.simpler? = none ∧ ∀ y ∈ x.form.operands, y.IsSimple :=
  forall_isPart_iff

theorem isSimple_of_simpler? (hoperands : ∀ u ∈ x.form.operands, u.IsSimple)
    (h : x.simpler? = some z) : z.IsSimple :=
  forall_isPart_of_simpler? (fun _ _ => rfl) (fun _ => rfl) hoperands h

theorem isSimple_simplify (x : Expr) (n : Nat) : (x.simplify n).1.IsSimple := by
  induction x using induction_on_operands generalizing n with
  | h x ih =>
    obtain ⟨g, hg, hstep⟩ := x.simplify_cases n
    have hoperands : ∀ u ∈ g.operands, u.IsSimple := by
      intro u hu
      obtain ⟨y, hy, m, rfl⟩ := exists_mem_of_forall₂ hg.operands.flip hu
      exact ih y hy m
    obtain hsome | ⟨hnone, hidle⟩ := hstep
    · exact isSimple_of_simpler? hoperands hsome
    · rw [hidle]
      exact isSimple_iff.2 ⟨hnone, hoperands⟩

end Expr

section

variable {n : Nat}

theorem bind_of_idle {α β : Type} {x : StateM Nat α} {a : α} {g : α → StateM Nat β}
    (h : x n = (a, n)) : (x >>= g) n = g a n := by
  show g (x n).1 (x n).2 = g a n
  rw [h]

theorem simplifyArgs_of_idle {xs : List Expr} (h : ∀ x ∈ xs, x.simplify n = (x, n)) :
    simplifyArgs xs n = (xs, n) := by
  induction xs with
  | nil => rfl
  | cons x xs ih =>
    obtain ⟨hx, hxs⟩ := List.forall_mem_cons.1 h
    rw [simplifyArgs, bind_of_idle hx, bind_of_idle (ih hxs)]
    rfl

theorem Form.simplify_of_idle {f : Form} (h : ∀ x ∈ f.operands, x.simplify n = (x, n)) :
    f.simplify n = (f, n) := by
  cases f with
  | arith op x y | compare op x y | and x y | or x y =>
    obtain ⟨hx, hy⟩ := forall_mem_pair.1 h
    rw [Form.simplify, bind_of_idle hx, bind_of_idle hy]
    rfl
  | not x | forSome v g x | index w x =>
    have hx : x.simplify n = (x, n) := h x List.mem_cons_self
    rw [Form.simplify, bind_of_idle hx]
    rfl
  | call c =>
    obtain ⟨name, xs⟩ := c
    have hxs : simplifyArgs xs n = (xs, n) := simplifyArgs_of_idle h
    have hcall : Call.simplify ⟨name, xs⟩ n = (⟨name, xs⟩, n) := by
      rw [Call.simplify, bind_of_idle hxs]
      rfl
    rw [Form.simplify, bind_of_idle hcall]
    rfl
  | rangeEq w s e u t f =>
    simp only [operands, List.forall_mem_cons] at h
    obtain ⟨hs, he, ht, hf, -⟩ := h
    rw [Form.simplify, bind_of_idle hs, bind_of_idle he, bind_of_idle ht, bind_of_idle hf]
    rfl
  | var _ | num _ | truth _ | automaton _ => rfl

theorem Expr.simplify_of_isSimple {x : Expr} (h : x.IsSimple) (n : Nat) :
    x.simplify n = (x, n) := by
  induction x using induction_on_operands with
  | h x ih =>
    obtain ⟨hroot, hoperands⟩ := isSimple_iff.1 h
    have hform : x.form.simplify n = (x.form, n) :=
      Form.simplify_of_idle fun y hy => ih y hy (hoperands y hy)
    obtain ⟨f, d⟩ := x
    rw [simplify, bind_of_idle hform, step, hroot]
    rfl

/-- After simplifying, no rule applies to any part, nor is any of the forms that the rules are for
left outside of guards, and simplifying once more changes and counts nothing. -/
theorem simplify_simplify (x : Expr) (n m : Nat) :
    (∀ y : Expr, y.IsPart (x.simplify n).1 → y.simpler? = none ∧ y.form.IsReduced) ∧
      (x.simplify n).1.simplify m = ((x.simplify n).1, m) := by
  have hsimple := x.isSimple_simplify n
  refine ⟨fun y hy => ?_, Expr.simplify_of_isSimple hsimple m⟩
  have hroot := hsimple y hy
  exact ⟨hroot, Expr.simpler?_eq_none_iff.1 hroot⟩

end

end RegularArithmetic
