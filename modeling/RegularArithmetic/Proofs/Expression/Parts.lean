import Mathlib.Data.List.Forall2
import Mathlib.Tactic.Common
import RegularArithmetic.Expression.Simplification
import RegularArithmetic.Proofs.Computation

/-!
The parts of an expression, and how simplifying acts on them: operand by operand, and then by a step
at the root, which gives a constant, a number or something that was a part before.
-/

set_option autoImplicit false

namespace RegularArithmetic

/-- The expressions that a form joins. Neither the guard of a quantifier nor the domain of an
expression is one of them. -/
def Form.operands : Form → List Expr
  | .arith _ x y => [x, y]
  | .compare _ x y => [x, y]
  | .and x y => [x, y]
  | .or x y => [x, y]
  | .not x => [x]
  | .forSome _ _ x => [x]
  | .call c => c.args
  | .index _ i => [i]
  | .rangeEq _ s e _ t f => [s, e, t, f]
  | .var _ | .num _ | .truth _ | .automaton _ => []

theorem forall_mem_pair {x y : Expr} {P : Expr → Prop} :
    (∀ z ∈ [x, y], P z) ↔ P x ∧ P y := by
  rw [List.forall_mem_cons, List.forall_mem_singleton]

theorem Form.sizeOf_lt_of_mem_operands {f : Form} {x : Expr} (h : x ∈ f.operands) :
    sizeOf x < sizeOf f := by
  cases f with
  | call c =>
    obtain ⟨name, xs⟩ := c
    have hlt := List.sizeOf_lt_of_mem (show x ∈ xs from h)
    simp only [Form.call.sizeOf_spec, Call.mk.sizeOf_spec]
    omega
  | var _ | num _ | truth _ | automaton _ => cases h
  | _ =>
    simp only [operands, List.mem_cons, List.not_mem_nil, or_false] at h
    grind

namespace Expr

@[elab_as_elim]
theorem induction_on_operands {P : Expr → Prop}
    (h : ∀ x : Expr, (∀ y ∈ x.form.operands, P y) → P x) (x : Expr) : P x :=
  h x fun y hy =>
    have : sizeOf y < sizeOf x := by
      have hlt := Form.sizeOf_lt_of_mem_operands hy
      obtain ⟨f, d⟩ := x
      simp only [Expr.mk.sizeOf_spec] at hlt ⊢
      omega
    induction_on_operands h y
termination_by sizeOf x

/-- The first expression is the second, or stands somewhere in it outside of guards and domains. -/
inductive IsPart : Expr → Expr → Prop
  | self (x : Expr) : IsPart x x
  | operand {x y z : Expr} (hy : y ∈ x.form.operands) (h : IsPart z y) : IsPart z x

variable {x y z : Expr} {P : Expr → Prop}

theorem IsPart.trans (hz : IsPart z y) (hy : IsPart y x) : IsPart z x := by
  induction hy with
  | self => exact hz
  | operand hu _ ih => exact .operand hu (ih hz)

theorem forall_isPart_iff : (∀ y, IsPart y x → P y) ↔
    P x ∧ ∀ y ∈ x.form.operands, ∀ z, IsPart z y → P z := by
  constructor
  · exact fun h => ⟨h x (.self x), fun y hy z hz => h z (.operand hy hz)⟩
  · rintro ⟨hroot, hoperands⟩ z hz
    cases hz with
    | self => exact hroot
    | operand hy hz => exact hoperands _ hy z hz

theorem simplerAnd?_cases (h : simplerAnd? x y = some z) :
    z = .truth false ∧ (x.form = .truth false ∨ y.form = .truth false) ∨
      z = x ∧ (y.form = .truth true ∨ x = y) ∨ z = y ∧ x.form = .truth true := by
  rw [simplerAnd?] at h
  split at h <;> simp_all

theorem simplerOr?_cases (h : simplerOr? x y = some z) :
    z = .truth true ∧ (x.form = .truth true ∨ y.form = .truth true) ∨
      z = x ∧ (y.form = .truth false ∨ x = y) ∨ z = y ∧ x.form = .truth false := by
  rw [simplerOr?] at h
  split at h <;> simp_all

theorem simpler?_cases (h : x.simpler? = some z) :
    (∃ k, z = ⟨.num k, x.domain⟩) ∨ (∃ b, z = .truth b) ∨
      ∃ y ∈ x.form.operands, IsPart z y := by
  obtain ⟨f, d⟩ := x
  cases f with
  | arith op u v =>
    obtain ⟨k, -, rfl⟩ := Option.map_eq_some_iff.1 h
    exact .inl ⟨k, rfl⟩
  | not u =>
    obtain ⟨g, e⟩ := u
    cases g with
    | not v =>
      obtain rfl := Option.some_inj.1 h
      exact .inr (.inr ⟨_, List.mem_cons_self, .operand List.mem_cons_self (.self v)⟩)
    | truth b =>
      obtain rfl := Option.some_inj.1 h
      exact .inr (.inl ⟨_, rfl⟩)
    | _ => cases h
  | and u v =>
    obtain ⟨rfl, -⟩ | ⟨rfl, -⟩ | ⟨rfl, -⟩ := simplerAnd?_cases h
    · exact .inr (.inl ⟨_, rfl⟩)
    · exact .inr (.inr ⟨z, List.mem_cons_self, .self z⟩)
    · exact .inr (.inr ⟨z, List.mem_cons_of_mem u List.mem_cons_self, .self z⟩)
  | or u v =>
    obtain ⟨rfl, -⟩ | ⟨rfl, -⟩ | ⟨rfl, -⟩ := simplerOr?_cases h
    · exact .inr (.inl ⟨_, rfl⟩)
    · exact .inr (.inr ⟨z, List.mem_cons_self, .self z⟩)
    · exact .inr (.inr ⟨z, List.mem_cons_of_mem u List.mem_cons_self, .self z⟩)
  | _ => cases h

theorem forall_isPart_of_simpler? (hnum : ∀ k d, P ⟨.num k, d⟩) (htruth : ∀ b, P (.truth b))
    (hoperands : ∀ y ∈ x.form.operands, ∀ z, IsPart z y → P z) (h : x.simpler? = some z) :
    ∀ y, IsPart y z → P y := by
  obtain ⟨k, rfl⟩ | ⟨b, rfl⟩ | ⟨y, hy, hz⟩ := simpler?_cases h
  · exact forall_isPart_iff.2 ⟨hnum k _, nofun⟩
  · exact forall_isPart_iff.2 ⟨htruth b, nofun⟩
  · exact fun u hu => hoperands y hy u (hu.trans hz)

theorem step_cases (x : Expr) (n : Nat) :
    x.simpler? = some (x.step n).1 ∨ x.simpler? = none ∧ x.step n = (x, n) := by
  cases h : x.simpler? with
  | some y =>
    refine .inl (congrArg some ?_)
    rw [step, h]
    rfl
  | none =>
    refine .inr ⟨rfl, ?_⟩
    rw [step, h]
    rfl

end Expr

/-- `g` joins other operands in the way in which `f` joins its own. -/
inductive Form.Alike (R : Expr → Expr → Prop) : Form → Form → Prop
  | leaf {f : Form} (h : f.operands = []) : Alike R f f
  | arith (op : Operation) {x y x' y' : Expr} (hx : R x x') (hy : R y y') :
      Alike R (.arith op x y) (.arith op x' y')
  | compare (op : Comparison) {x y x' y' : Expr} (hx : R x x') (hy : R y y') :
      Alike R (.compare op x y) (.compare op x' y')
  | and {x y x' y' : Expr} (hx : R x x') (hy : R y y') : Alike R (.and x y) (.and x' y')
  | or {x y x' y' : Expr} (hx : R x x') (hy : R y y') : Alike R (.or x y) (.or x' y')
  | not {x x' : Expr} (hx : R x x') : Alike R (.not x) (.not x')
  | forSome (v : String) (g : Option Call) {x x' : Expr} (hx : R x x') :
      Alike R (.forSome v g x) (.forSome v g x')
  | call (name : String) {xs xs' : List Expr} (h : List.Forall₂ R xs xs') :
      Alike R (.call ⟨name, xs⟩) (.call ⟨name, xs'⟩)
  | index (w : String) {i i' : Expr} (hi : R i i') : Alike R (.index w i) (.index w i')
  | rangeEq (w u : String) {s e t f s' e' t' f' : Expr} (hs : R s s') (he : R e e') (ht : R t t')
      (hf : R f f') : Alike R (.rangeEq w s e u t f) (.rangeEq w s' e' u t' f')

namespace Form.Alike

variable {R S : Expr → Expr → Prop} {f g : Form}

theorem operands (h : f.Alike R g) : List.Forall₂ R f.operands g.operands := by
  cases h with
  | leaf h => exact h ▸ .nil
  | arith _ hx hy => exact .cons hx (.cons hy .nil)
  | compare _ hx hy => exact .cons hx (.cons hy .nil)
  | and hx hy => exact .cons hx (.cons hy .nil)
  | or hx hy => exact .cons hx (.cons hy .nil)
  | not hx => exact .cons hx .nil
  | forSome _ _ hx => exact .cons hx .nil
  | call _ h => exact h
  | index _ hi => exact .cons hi .nil
  | rangeEq _ _ hs he ht hf => exact .cons hs (.cons he (.cons ht (.cons hf .nil)))

theorem imp (h : f.Alike R g) (hRS : ∀ x ∈ f.operands, ∀ y, R x y → S x y) : f.Alike S g := by
  cases h with
  | leaf h => exact .leaf h
  | arith op hx hy =>
    obtain ⟨hx', hy'⟩ := forall_mem_pair.1 hRS
    exact .arith op (hx' _ hx) (hy' _ hy)
  | compare op hx hy =>
    obtain ⟨hx', hy'⟩ := forall_mem_pair.1 hRS
    exact .compare op (hx' _ hx) (hy' _ hy)
  | and hx hy =>
    obtain ⟨hx', hy'⟩ := forall_mem_pair.1 hRS
    exact .and (hx' _ hx) (hy' _ hy)
  | or hx hy =>
    obtain ⟨hx', hy'⟩ := forall_mem_pair.1 hRS
    exact .or (hx' _ hx) (hy' _ hy)
  | not hx => exact .not (hRS _ List.mem_cons_self _ hx)
  | forSome v g hx => exact .forSome v g (hRS _ List.mem_cons_self _ hx)
  | call name hxs =>
    have hboth := (List.forall₂_and_left _ _).2 ⟨hRS, hxs⟩
    exact .call name (hboth.imp fun x y h => h.1 y h.2)
  | index w hi => exact .index w (hRS _ List.mem_cons_self _ hi)
  | rangeEq w u hs he ht hf =>
    simp only [Form.operands, List.forall_mem_cons] at hRS
    obtain ⟨hs', he', ht', hf', -⟩ := hRS
    exact .rangeEq w u (hs' _ hs) (he' _ he) (ht' _ ht) (hf' _ hf)

end Form.Alike

def Expr.SimplifiesTo (x y : Expr) : Prop := ∃ n, (x.simplify n).1 = y

theorem forall₂_simplifyArgs : ∀ (xs : List Expr) (n : Nat),
    List.Forall₂ Expr.SimplifiesTo xs (simplifyArgs xs n).1
  | [], _ => .nil
  | _ :: xs, n => .cons ⟨n, rfl⟩ (forall₂_simplifyArgs xs _)

theorem Form.alike_simplify (f : Form) (n : Nat) :
    f.Alike Expr.SimplifiesTo (f.simplify n).1 := by
  cases f with
  | arith op x y => exact .arith op ⟨n, rfl⟩ ⟨_, rfl⟩
  | compare op x y => exact .compare op ⟨n, rfl⟩ ⟨_, rfl⟩
  | and x y => exact .and ⟨n, rfl⟩ ⟨_, rfl⟩
  | or x y => exact .or ⟨n, rfl⟩ ⟨_, rfl⟩
  | not x => exact .not ⟨n, rfl⟩
  | forSome v g x => exact .forSome v g ⟨n, rfl⟩
  | call c =>
    obtain ⟨name, xs⟩ := c
    exact .call name (forall₂_simplifyArgs xs n)
  | index w i => exact .index w ⟨n, rfl⟩
  | rangeEq w s e u t f => exact .rangeEq w u ⟨n, rfl⟩ ⟨_, rfl⟩ ⟨_, rfl⟩ ⟨_, rfl⟩
  | _ => exact .leaf rfl

theorem Expr.simplify_cases (x : Expr) (n : Nat) : ∃ g, x.form.Alike SimplifiesTo g ∧
    (simpler? ⟨g, x.domain⟩ = some (x.simplify n).1 ∨
      simpler? ⟨g, x.domain⟩ = none ∧ (x.simplify n).1 = ⟨g, x.domain⟩) := by
  obtain ⟨f, d⟩ := x
  refine ⟨(f.simplify n).1, f.alike_simplify n, ?_⟩
  rcases step_cases ⟨(f.simplify n).1, d⟩ (f.simplify n).2 with hsome | ⟨hnone, hidle⟩
  · exact .inl hsome
  · exact .inr ⟨hnone, congrArg Prod.fst hidle⟩

end RegularArithmetic
