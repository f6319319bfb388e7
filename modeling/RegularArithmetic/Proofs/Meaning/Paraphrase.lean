import RegularArithmetic.Proofs.Expression.Sorts
import RegularArithmetic.Proofs.Meaning.Limits

/-!
Expressions that say the same, whatever names and literals mean, whatever the domains of their parts
are and whatever is asked of the values of quantified variables. One of them can be put for the
other anywhere, and what an expression is simplified to can be put for it.
-/

set_option autoImplicit false

namespace RegularArithmetic

namespace Expr

/-- `y` is of the sort of `x` and says what `x` does. -/
structure Paraphrases (x y : Expr) : Prop extends x.SameSort y where
  operand : ∀ I τ, y.operand I τ = x.operand I τ
  holds : ∀ I B n τ, y.Holds I B n τ ↔ x.Holds I B n τ

theorem operand_of_isFormula {x : Expr} (h : x.isFormula = true) (I : Interpretation)
    (τ : Valuation) : x.operand I τ = .undefined := by
  obtain ⟨f, d⟩ := x
  cases f with
  | var _ | num _ | arith _ _ _ => cases h
  | _ => rfl

namespace Paraphrases

variable {x y z : Expr}

theorem refl (x : Expr) : x.Paraphrases x where
  isFormula := rfl
  value? := rfl
  operand _ _ := rfl
  holds _ _ _ _ := Iff.rfl

theorem trans (h : x.Paraphrases y) (h' : y.Paraphrases z) : x.Paraphrases z where
  toSameSort := h.toSameSort.trans h'.toSameSort
  operand I τ := (h'.operand I τ).trans (h.operand I τ)
  holds I B n τ := (h'.holds I B n τ).trans (h.holds I B n τ)

theorem of_formulas (hx : x.isFormula = true) (hy : y.isFormula = true)
    (h : ∀ I B n τ, y.Holds I B n τ ↔ x.Holds I B n τ) : x.Paraphrases y where
  toSameSort := .of_formulas hx hy
  operand I τ := (operand_of_isFormula hy I τ).trans (operand_of_isFormula hx I τ).symm
  holds := h

theorem operands_eq {xs ys : List Expr} (h : List.Forall₂ Paraphrases xs ys) (I : Interpretation)
    (τ : Valuation) : operands I ys τ = operands I xs τ := by
  induction h with
  | nil => rfl
  | cons hxy _ ih => rw [operands, operands, hxy.operand, ih]

end Paraphrases

end Expr

namespace Form.Alike

variable {x : Expr} {f g : Form}

theorem paraphrases (h : x.form.Alike Expr.Paraphrases g) : x.Paraphrases ⟨g, x.domain⟩ := by
  have hsame := sameSort (h.imp fun _ _ _ hxy => hxy.toSameSort) x.domain
  obtain ⟨f, d⟩ := x
  cases h with
  | leaf _ => exact .refl _
  | arith op hx hy =>
    have hvalue := hsame.value?
    refine ⟨hsame, fun I τ => ?_, fun _ _ _ _ => Iff.rfl⟩
    simp only [Expr.value?] at hvalue
    simp only [Expr.operand, Form.operand, hvalue, hx.value?, hy.value?, hx.operand, hy.operand]
  | compare op hx hy =>
    refine .of_formulas rfl rfl fun I B n τ => ?_
    simp only [Expr.Holds, Form.Holds, hx.isFormula, hy.isFormula, hx.operand, hy.operand,
      hx.holds, hy.holds]
  | and hx hy =>
    exact .of_formulas rfl rfl fun I B n τ => and_congr (hx.holds I B n τ) (hy.holds I B n τ)
  | or hx hy =>
    exact .of_formulas rfl rfl fun I B n τ => or_congr (hx.holds I B n τ) (hy.holds I B n τ)
  | not hx => exact .of_formulas rfl rfl fun I B n τ => not_congr (hx.holds I B n τ)
  | forSome v c hx =>
    refine .of_formulas rfl rfl fun I B n τ => ?_
    simp only [Expr.Holds, Form.Holds, hx.holds]
  | call name hxs =>
    refine .of_formulas rfl rfl fun I B n τ => ?_
    simp only [Expr.Holds, Form.Holds, Call.Holds, Expr.Paraphrases.operands_eq hxs]
  | index w hi =>
    refine .of_formulas rfl rfl fun I B n τ => ?_
    simp only [Expr.Holds, Form.Holds, hi.operand]
  | rangeEq w u hs he ht hf =>
    refine .of_formulas rfl rfl fun I B n τ => ?_
    simp only [Expr.Holds, Form.Holds, Form.value?, hs.value?, he.value?, ht.value?, hf.value?,
      hs.operand, he.operand, ht.operand, hf.operand]

theorem usesDomain_eq (h : f.Alike Expr.SameSort g) : g.usesDomain = f.usesDomain := by
  cases h with
  | arith op hx hy =>
    cases op <;> simp only [Form.usesDomain, Form.value?, hx.value?, hy.value?]
  | _ => rfl

theorem withinArgs {xs ys : List Expr} {K : Limits} (h : List.Forall₂
    (fun y z => y.SameSort z ∧ ∀ K, y.Within K → z.Within K) xs ys) (hxs : withinArgs xs K) :
    RegularArithmetic.withinArgs ys K := by
  induction h with
  | nil => exact hxs
  | cons hxy _ ih =>
    exact ⟨⟨hxy.1.isFormula.trans hxs.1.1, hxy.2 K hxs.1.2⟩, ih hxs.2⟩

/-- Operands can be replaced by others that are made of no other names. -/
theorem within (h : x.form.Alike (fun y z => y.SameSort z ∧ ∀ K, y.Within K → z.Within K) g)
    {K : Limits} (hx : x.Within K) : Expr.Within ⟨g, x.domain⟩ K := by
  have hsame : x.form.Alike Expr.SameSort g := h.imp fun _ _ _ hxy => hxy.1
  obtain ⟨f, d⟩ := x
  obtain ⟨hf, hd⟩ := hx
  refine ⟨?_, fun huses => hd (hsame.usesDomain_eq ▸ huses)⟩
  cases h with
  | leaf _ => exact hf
  | arith op hx hy =>
    exact ⟨⟨hx.1.isFormula.trans hf.1.1, hx.2 K hf.1.2⟩, hy.1.isFormula.trans hf.2.1,
      hy.2 K hf.2.2⟩
  | compare op hx hy => exact ⟨hx.2 K hf.1, hy.2 K hf.2⟩
  | and hx hy => exact ⟨hx.2 K hf.1, hy.2 K hf.2⟩
  | or hx hy => exact ⟨hx.2 K hf.1, hy.2 K hf.2⟩
  | not hx => exact hx.2 K hf
  | forSome v c hx => exact ⟨hf.1, hf.2.1, hx.2 _ hf.2.2⟩
  | call name hxs => exact ⟨hf.1, withinArgs hxs hf.2⟩
  | index w hi => exact ⟨hf.1, hi.1.isFormula.trans hf.2.1, hi.2 K hf.2.2⟩
  | rangeEq w u hs he ht hf' =>
    exact ⟨hf.1,
      ⟨⟨hs.1.isFormula.trans hf.2.1.1.1, hs.2 K hf.2.1.1.2⟩, he.1.isFormula.trans hf.2.1.2.1,
        he.2 K hf.2.1.2.2⟩,
      ⟨ht.1.isFormula.trans hf.2.2.1.1, ht.2 K hf.2.2.1.2⟩, hf'.1.isFormula.trans hf.2.2.2.1,
        hf'.2 K hf.2.2.2.2⟩

end Form.Alike

namespace Expr

variable {x z : Expr} {K : Limits} {n : Nat}

theorem holds_of_truth {b : Bool} (h : x.form = .truth b) (I : Interpretation) (B : Bounds)
    (n : Nat) (τ : Valuation) : x.Holds I B n τ ↔ b = true := by
  obtain ⟨f, d⟩ := x
  obtain rfl : f = .truth b := h
  exact Iff.rfl

theorem holds_truth (b : Bool) (I : Interpretation) (B : Bounds) (n : Nat) (τ : Valuation) :
    (Expr.truth b).Holds I B n τ ↔ b = true :=
  holds_of_truth rfl I B n τ

theorem paraphrases_simpler? (hx : x.IsWellJoined) (h : x.simpler? = some z) :
    x.Paraphrases z := by
  have hsame := sameSort_simpler? hx h
  have hformulas : x.isFormula = true → (∀ I B n τ, z.Holds I B n τ ↔ x.Holds I B n τ) →
      x.Paraphrases z := fun hx hiff => .of_formulas hx (hsame.isFormula.trans hx) hiff
  obtain ⟨f, d⟩ := x
  cases f with
  | arith op u v =>
    obtain ⟨k, hk, rfl⟩ := Option.map_eq_some_iff.1 h
    refine ⟨hsame, fun I τ => ?_, fun _ _ _ _ => Iff.rfl⟩
    have hk : (Form.arith op u v).value? = some k := hk
    simp only [operand, Form.operand, Operand.arith, hk]
  | not u =>
    refine hformulas rfl fun I B n τ => ?_
    obtain ⟨g, e⟩ := u
    cases g with
    | not v =>
      obtain rfl := Option.some_inj.1 h
      exact Classical.not_not.symm
    | truth b =>
      obtain rfl := Option.some_inj.1 h
      cases b <;> simp [holds_truth, Holds, Form.Holds]
    | _ => cases h
  | and u v =>
    refine hformulas rfl fun I B n τ => ?_
    show z.Holds I B n τ ↔ u.Holds I B n τ ∧ v.Holds I B n τ
    obtain ⟨rfl, hu | hv⟩ | ⟨rfl, hv | rfl⟩ | ⟨rfl, hu⟩ := simplerAnd?_cases h
    · simp [holds_truth, holds_of_truth hu]
    · simp [holds_truth, holds_of_truth hv]
    · simp [holds_of_truth hv]
    · exact and_self_iff.symm
    · simp [holds_of_truth hu]
  | or u v =>
    refine hformulas rfl fun I B n τ => ?_
    show z.Holds I B n τ ↔ u.Holds I B n τ ∨ v.Holds I B n τ
    obtain ⟨rfl, hu | hv⟩ | ⟨rfl, hv | rfl⟩ | ⟨rfl, hu⟩ := simplerOr?_cases h
    · simp [holds_truth, holds_of_truth hu]
    · simp [holds_truth, holds_of_truth hv]
    · simp [holds_of_truth hv]
    · exact or_self_iff.symm
    · simp [holds_of_truth hu]
  | _ => cases h

theorem Within.simpler? (hx : x.Within K) (h : x.simpler? = some z) : z.Within K := by
  obtain ⟨f, d⟩ := x
  have htruth : ∀ b, (truth b).Within K := fun b => ⟨trivial, fun hd => nomatch hd⟩
  cases f with
  | arith op u v =>
    obtain ⟨k, hk, rfl⟩ := Option.map_eq_some_iff.1 h
    refine ⟨trivial, fun _ => hx.2 ?_⟩
    have hvalue : (Form.arith op u v).value?.isSome := Option.isSome_of_eq_some hk
    cases op <;> first | rfl | exact hvalue
  | not u =>
    obtain ⟨g, e⟩ := u
    cases g with
    | not v =>
      obtain rfl := Option.some_inj.1 h
      exact hx.1.1
    | truth b =>
      obtain rfl := Option.some_inj.1 h
      exact htruth _
    | _ => cases h
  | and u v =>
    obtain ⟨rfl, -⟩ | ⟨rfl, -⟩ | ⟨rfl, -⟩ := simplerAnd?_cases h
    · exact htruth false
    · exact hx.1.1
    · exact hx.1.2
  | or u v =>
    obtain ⟨rfl, -⟩ | ⟨rfl, -⟩ | ⟨rfl, -⟩ := simplerOr?_cases h
    · exact htruth true
    · exact hx.1.1
    · exact hx.1.2
  | _ => cases h

theorem IsWellJoined.simplify_induction {R : Expr → Expr → Prop}
    (htrans : ∀ {x y z}, R x y → R y z → R x z)
    (halike : ∀ {x g}, x.IsWellJoined → x.form.Alike R g → R x ⟨g, x.domain⟩)
    (hstep : ∀ {x z}, x.IsWellJoined → x.simpler? = some z → R x z) (hx : x.IsWellJoined)
    (n : Nat) : R x (x.simplify n).1 := by
  induction x using induction_on_operands generalizing n with
  | h x ih =>
    obtain ⟨g, hg, hsome | ⟨-, hidle⟩⟩ := x.simplify_cases n
    all_goals
      have hparts : x.form.Alike R g := hg.imp fun y hy _ ⟨m, hz⟩ =>
        hz ▸ ih y hy ((isWellJoined_iff.1 hx).2 y hy) m
    · exact htrans (halike hx hparts) (hstep (hx.simplified hg _) hsome)
    · exact hidle ▸ halike hx hparts

theorem paraphrases_simplify (h : x.IsWellJoined) (n : Nat) : x.Paraphrases (x.simplify n).1 :=
  h.simplify_induction .trans (fun _ hg => hg.paraphrases) paraphrases_simpler? n

theorem Within.simplify (hx : x.Within K) (h : x.IsWellJoined) (n : Nat) :
    (x.simplify n).1.Within K := by
  have hkept := h.simplify_induction (R := fun y z => y.SameSort z ∧ ∀ K, y.Within K → z.Within K)
    (fun hxy hyz => ⟨hxy.1.trans hyz.1, fun K hK => hyz.2 K (hxy.2 K hK)⟩)
    (fun _ hg => ⟨Form.Alike.sameSort (hg.imp fun _ _ _ h => h.1) _, fun _ => hg.within⟩)
    (fun hx hsome => ⟨sameSort_simpler? hx hsome, fun K hK => hK.simpler? hsome⟩) n
  exact hkept.2 K hx

end Expr

end RegularArithmetic
