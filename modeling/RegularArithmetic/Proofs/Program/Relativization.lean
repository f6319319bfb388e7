import RegularArithmetic.Proofs.Meaning.Paraphrase
import RegularArithmetic.Proofs.Meaning.Substitution
import RegularArithmetic.Proofs.Program.Arithmetic

/-!
Quantifiers relativized to what is asked of their variables. A formula under restrictions says what
its relativization says without them. The guard of a quantifier is asked of the values of its own
variable, and of those of every quantifier over a variable of this name in its scope: a guarded
quantifier is one over the guard and the body, whose quantifiers are relativized to the guard.
-/

set_option autoImplicit false

namespace RegularArithmetic

open Program (conjoin)

section

variable (cs : String → List Call)

mutual

/-- The calls for its variable are put before the body of every quantifier. -/
def Expr.relativize : Expr → Expr
  | ⟨f, d⟩ => ⟨f.relativize, d⟩

def Form.relativize : Form → Form
  | .compare op x y => .compare op x.relativize y.relativize
  | .and x y => .and x.relativize y.relativize
  | .or x y => .or x.relativize y.relativize
  | .not x => .not x.relativize
  | .forSome v g x => .forSome v g (conjoin (cs v) x.relativize)
  | f => f

end

end

def Call.demands (c : Call) (v : String) : String → List Call := fun u => if u = v then [c] else []

section

variable {I : Interpretation} {K : Limits} {cs : String → List Call} {v : String} {c : Call}

def Bounds.demand (B : Bounds) (I : Interpretation) (cs : String → List Call) : Bounds :=
  fun u n τ => B u n τ ∧ ∀ c ∈ cs u, c.Holds I n τ

theorem Bounds.demand_restrict (B : Bounds) (v : String) (P : Nat → Valuation → Prop) :
    (B.demand I cs).restrict v P = (B.restrict v P).demand I cs := by
  funext u n τ
  exact propext and_right_comm

theorem Bounds.demand_demands (B : Bounds) (c : Call) (v : String) :
    B.demand I (c.demands v) = B.restrict v (c.Holds I) := by
  funext u n τ
  by_cases hu : u = v <;> simp [demand, restrict, Call.demands, hu]

theorem Restrictions.demand_visible {B : Bounds} (hB : ∀ v n τ, B v n τ) (r : Restrictions) :
    B.demand I r.visible = r.bounds I := by
  funext u n τ
  exact propext (and_iff_right (hB u n τ))

theorem Expr.isFormula_relativize (x : Expr) : (x.relativize cs).isFormula = x.isFormula := by
  obtain ⟨f, d⟩ := x
  cases f <;> rfl

theorem Expr.relativize_of_isFormula {x : Expr} (h : x.isFormula = false) :
    x.relativize cs = x := by
  obtain ⟨f, d⟩ := x
  cases f with
  | var _ | num _ | arith _ _ _ => rfl
  | _ => cases h

theorem Expr.operand_relativize (x : Expr) (I : Interpretation) (τ : Valuation) :
    (x.relativize cs).operand I τ = x.operand I τ := by
  cases h : x.isFormula with
  | false => rw [relativize_of_isFormula h]
  | true => rw [operand_of_isFormula h, operand_of_isFormula ((isFormula_relativize x).trans h)]

mutual

theorem Expr.holds_relativize : ∀ (x : Expr) (B : Bounds) (n : Nat) (τ : Valuation),
    (x.relativize cs).Holds I B n τ ↔ x.Holds I (B.demand I cs) n τ
  | ⟨f, _⟩ => Form.holds_relativize f

theorem Form.holds_relativize : ∀ (f : Form) (B : Bounds) (n : Nat) (τ : Valuation),
    (f.relativize cs).Holds I B n τ ↔ f.Holds I (B.demand I cs) n τ
  | .and x y, B, n, τ => and_congr (Expr.holds_relativize x B n τ) (Expr.holds_relativize y B n τ)
  | .or x y, B, n, τ => or_congr (Expr.holds_relativize x B n τ) (Expr.holds_relativize y B n τ)
  | .not x, B, n, τ => not_congr (Expr.holds_relativize x B n τ)
  | .compare op x y, B, n, τ => by
    simp only [Form.relativize, Form.Holds, Expr.isFormula_relativize, Expr.operand_relativize,
      Expr.holds_relativize x, Expr.holds_relativize y]
  | .forSome u g x, B, n, τ => by
    refine exists_congr fun m => and_congr_right fun _ => exists_congr fun a =>
      and_congr_right fun _ => and_congr_right fun _ => ?_
    rw [Bounds.demand_restrict, ← Expr.holds_relativize x, Program.holds_conjoin]
    exact and_assoc.symm
  | .truth _, _, _, _ => Iff.rfl
  | .call _, _, _, _ => Iff.rfl
  | .automaton _, _, _, _ => Iff.rfl
  | .index .., _, _, _ => Iff.rfl
  | .rangeEq .., _, _, _ => Iff.rfl
  | .var _, _, _, _ => Iff.rfl
  | .num _, _, _, _ => Iff.rfl
  | .arith .., _, _, _ => Iff.rfl

end

mutual

/-- Where nothing is demanded of its quantified variables, a formula stays as it is. -/
theorem Expr.relativize_eq_self : ∀ {x : Expr}, (∀ u ∈ x.binders, cs u = []) → x.relativize cs = x
  | ⟨f, d⟩, h => congrArg (Expr.mk · d) (Form.relativize_eq_self (f := f) h)

theorem Form.relativize_eq_self : ∀ {f : Form}, (∀ u ∈ f.binders, cs u = []) → f.relativize cs = f
  | .and x y, h => by
    obtain ⟨hx, hy⟩ := List.forall_mem_append.1 h
    rw [Form.relativize, Expr.relativize_eq_self hx, Expr.relativize_eq_self hy]
  | .or x y, h => by
    obtain ⟨hx, hy⟩ := List.forall_mem_append.1 h
    rw [Form.relativize, Expr.relativize_eq_self hx, Expr.relativize_eq_self hy]
  | .compare op x y, h => by
    obtain ⟨hx, hy⟩ := List.forall_mem_append.1 h
    rw [Form.relativize, Expr.relativize_eq_self hx, Expr.relativize_eq_self hy]
  | .not x, h => congrArg Form.not (Expr.relativize_eq_self (x := x) h)
  | .forSome u g x, h => by
    obtain ⟨hu, hx⟩ := List.forall_mem_cons.1 h
    rw [Form.relativize, hu, Expr.relativize_eq_self hx, conjoin, List.foldr_nil]
  | .truth _, _ => rfl
  | .call _, _ => rfl
  | .automaton _, _ => rfl
  | .index .., _ => rfl
  | .rangeEq .., _ => rfl
  | .var _, _ => rfl
  | .num _, _ => rfl
  | .arith .., _ => rfl

end

mutual

theorem Expr.Within.relativize : ∀ {x : Expr} {K : Limits}, x.Within K →
    (∀ u ∈ K.binders, ∀ c ∈ cs u, c.Within (K.bind u)) → (x.relativize cs).Within K
  | ⟨f, d⟩, K, h, hcs => by
    refine ⟨Form.Within.relativize h.1 hcs, fun huses => h.2 ?_⟩
    cases f <;> exact huses

theorem Form.Within.relativize : ∀ {f : Form} {K : Limits}, f.Within K →
    (∀ u ∈ K.binders, ∀ c ∈ cs u, c.Within (K.bind u)) → (f.relativize cs).Within K
  | .and _ _, _, h, hcs => ⟨Expr.Within.relativize h.1 hcs, Expr.Within.relativize h.2 hcs⟩
  | .or _ _, _, h, hcs => ⟨Expr.Within.relativize h.1 hcs, Expr.Within.relativize h.2 hcs⟩
  | .compare _ _ _, _, h, hcs => ⟨Expr.Within.relativize h.1 hcs, Expr.Within.relativize h.2 hcs⟩
  | .not x, _, h, hcs => Expr.Within.relativize (x := x) h hcs
  | .forSome u _ _, K, h, hcs =>
    ⟨h.1, h.2.1, Program.within_conjoin (hcs u h.1) (Expr.Within.relativize h.2.2
      fun v hv c hc => (hcs v hv c hc).mono ((K.allows_bind u).bind v))⟩
  | .truth _, _, h, _ => h
  | .call _, _, h, _ => h
  | .automaton _, _, h, _ => h
  | .index .., _, h, _ => h
  | .rangeEq .., _, h, _ => h
  | .var _, _, h, _ => h
  | .num _, _, h, _ => h
  | .arith .., _, h, _ => h

end

/-! ### Guards -/

/-- A guarded quantifier is one without a guard, over the guard and the body, in which the inner
quantifiers over the variable are relativized to the guard. -/
theorem Form.paraphrases_guarded (v : String) (c : Call) (x : Expr) :
    (Form.forSome v (some c) x).plain.Paraphrases
      (Form.forSome v none (conjoin [c] (x.relativize (c.demands v)))).plain := by
  refine .of_formulas rfl rfl fun I B n τ => ?_
  refine exists_congr fun m => and_congr_right fun _ => exists_congr fun a =>
    and_congr_right fun _ => ?_
  have hguard : GuardHolds I (some c) = c.Holds I := by
    funext n τ
    simp [GuardHolds]
  have hnone : ∀ n τ, GuardHolds I none n τ := by simp [GuardHolds]
  have hidle : B.restrict v (GuardHolds I none) = B := by
    funext u n τ
    exact propext (and_iff_left fun _ => hnone n τ)
  rw [Program.holds_conjoin, hidle, List.forall_mem_singleton, Expr.holds_relativize,
    Bounds.demand_demands, hguard, and_iff_right (hnone _ _), and_left_comm]

theorem Form.paraphrases_guarded_of_notMem {x : Expr} (h : v ∉ x.binders) (c : Call) :
    (Form.forSome v (some c) x).plain.Paraphrases (Form.forSome v none (conjoin [c] x)).plain := by
  have hidle : x.relativize (c.demands v) = x :=
    Expr.relativize_eq_self fun u hu => if_neg (ne_of_mem_of_not_mem hu h)
  have hparaphrases := Form.paraphrases_guarded v c x
  rwa [hidle] at hparaphrases

theorem Form.Within.guarded {x : Expr} (h : (Form.forSome v (some c) x).Within K) :
    (Form.forSome v none (conjoin [c] (x.relativize (c.demands v)))).Within K := by
  have hc : c.Within (K.bind v) := h.2.1
  refine ⟨h.1, trivial, Program.within_conjoin (List.forall_mem_singleton.2 hc)
    (h.2.2.relativize fun u _ c' hc' => ?_)⟩
  by_cases hu : u = v
  · subst hu
    obtain rfl : c' = c := by simpa [Call.demands] using hc'
    exact hc.mono (Limits.allows_bind _ u)
  · simp [Call.demands, hu] at hc'

-- The guard is asked of the inner variable as well, and is more than a conjunct.
example : (Form.forSome "x" (some ⟨"zero", [.var "x"]⟩)
    (.forSome "x" none (.equal (.var "x") (.num 1)))).plain.Paraphrases
      (.forSome "x" none (.and (Call.toExpr ⟨"zero", [.var "x"]⟩)
        (.forSome "x" none (.and (Call.toExpr ⟨"zero", [.var "x"]⟩)
          (.equal (.var "x") (.num 1)))))) :=
  Form.paraphrases_guarded "x" _ _

end

end RegularArithmetic
