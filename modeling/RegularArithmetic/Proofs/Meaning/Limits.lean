import Mathlib.Data.Set.Insert
import RegularArithmetic.Proofs.Meaning.Denotation

/-!
Which names an expression is made of. What an expression says depends on the values of its
variables only; putting one variable for another changes its meaning accordingly.
-/

set_option autoImplicit false

namespace RegularArithmetic

/-- The free variables, the quantified ones, the names of relations, those among them that
domains may have, and the literals that an expression may have. -/
structure Limits where
  vars : Set String
  binders : Set String
  names : Set String
  domains : Set String
  literals : Set Literal

namespace Limits

/-- One more free variable. -/
def bind (K : Limits) (v : String) : Limits := { K with vars := insert v K.vars }

/-- What a domain may be made of: its only free variable is the value that it is about. -/
def closed (K : Limits) : Limits := ⟨{selfName}, ∅, K.domains, K.domains, ∅⟩

end Limits

namespace Form

/-- The value of the expression depends on its domain. -/
def usesDomain : Form → Bool
  | .arith .mul _ _ => true
  | f => f.value?.isSome

end Form

mutual

/-- The expression is made of these names, its operands and arguments are integer expressions, and
where its value depends on a domain, that domain is about the value alone. -/
def Expr.Within : Expr → Limits → Prop
  | ⟨f, d⟩, K => f.Within K ∧ (f.usesDomain = true → withinClosed d K)

def Form.Within : Form → Limits → Prop
  | .var v, K => v ∈ K.vars
  | .num _, _ => True
  | .truth _, _ => True
  | .arith _ x y, K => (x.isFormula = false ∧ x.Within K) ∧ y.isFormula = false ∧ y.Within K
  | .compare _ x y, K => x.Within K ∧ y.Within K
  | .and x y, K => x.Within K ∧ y.Within K
  | .or x y, K => x.Within K ∧ y.Within K
  | .not x, K => x.Within K
  | .forSome v g x, K => v ∈ K.binders ∧ withinGuard g (K.bind v) ∧ x.Within (K.bind v)
  | .call c, K => c.Within K
  | .automaton l, K => l ∈ K.literals ∧ ∀ v ∈ l.vars, v.1 ∈ K.vars
  | .index w i, K => w ∈ K.names ∧ i.isFormula = false ∧ i.Within K
  | .rangeEq w s e u t f, K => (w ∈ K.names ∧ u ∈ K.names) ∧
    ((s.isFormula = false ∧ s.Within K) ∧ e.isFormula = false ∧ e.Within K) ∧
    (t.isFormula = false ∧ t.Within K) ∧ f.isFormula = false ∧ f.Within K

def Call.Within : Call → Limits → Prop
  | ⟨name, xs⟩, K => name ∈ K.names ∧ withinArgs xs K

def withinArgs : List Expr → Limits → Prop
  | [], _ => True
  | x :: xs, K => (x.isFormula = false ∧ x.Within K) ∧ withinArgs xs K

def withinGuard : Option Call → Limits → Prop
  | none, _ => True
  | some c, K => c.Within K

/-- The domain is found out, and about its value alone. -/
def Domain.Closed : Domain → Limits → Prop
  | .restricted c, K => c.Within K.closed
  | .any, _ => True
  | .pending, _ => False

def withinClosed : Option Domain → Limits → Prop
  | some d, K => d.Closed K
  | none, _ => True

end

/-- One set of limits allows what another does. -/
structure Limits.Allows (K' K : Limits) : Prop where
  vars : K.vars ⊆ K'.vars
  binders : K.binders ⊆ K'.binders
  names : K.names ⊆ K'.names
  domains : K.domains ⊆ K'.domains
  literals : K.literals ⊆ K'.literals

theorem Limits.Allows.bind {K K' : Limits} (h : K'.Allows K) (v : String) :
    (K'.bind v).Allows (K.bind v) :=
  ⟨Set.insert_subset_insert h.vars, h.binders, h.names, h.domains, h.literals⟩

theorem Limits.allows_closed {K K' : Limits} (h : K.domains ⊆ K'.domains) :
    K'.closed.Allows K.closed :=
  ⟨subset_rfl, subset_rfl, h, h, subset_rfl⟩

theorem Limits.allows_bind (K : Limits) (v : String) : (K.bind v).Allows K :=
  ⟨Set.subset_insert _ _, subset_rfl, subset_rfl, subset_rfl, subset_rfl⟩

mutual

theorem Expr.Within.mono : ∀ {x : Expr} {K K' : Limits}, x.Within K → K'.Allows K → x.Within K'
  | ⟨_, d⟩, _, _, h, hK => ⟨Form.Within.mono h.1 hK, fun hd => withinClosed.mono (d := d) (h.2 hd)
    hK.domains⟩

theorem Form.Within.mono : ∀ {f : Form} {K K' : Limits}, f.Within K → K'.Allows K → f.Within K'
  | .var _, _, _, h, hK => hK.vars h
  | .num _, _, _, _, _ => trivial
  | .truth _, _, _, _, _ => trivial
  | .arith _ _ _, _, _, h, hK => ⟨⟨h.1.1, h.1.2.mono hK⟩, h.2.1, h.2.2.mono hK⟩
  | .compare _ _ _, _, _, h, hK => ⟨h.1.mono hK, h.2.mono hK⟩
  | .and _ _, _, _, h, hK => ⟨h.1.mono hK, h.2.mono hK⟩
  | .or _ _, _, _, h, hK => ⟨h.1.mono hK, h.2.mono hK⟩
  | .not x, _, _, h, hK => Expr.Within.mono (x := x) h hK
  | .forSome _ g _, _, _, h, hK =>
    ⟨hK.binders h.1, withinGuard.mono (g := g) h.2.1 (hK.bind _), h.2.2.mono (hK.bind _)⟩
  | .call c, _, _, h, hK => Call.Within.mono (c := c) h hK
  | .automaton _, _, _, h, hK => ⟨hK.literals h.1, fun v hv => hK.vars (h.2 v hv)⟩
  | .index _ _, _, _, h, hK => ⟨hK.names h.1, h.2.1, h.2.2.mono hK⟩
  | .rangeEq .., _, _, h, hK => ⟨⟨hK.names h.1.1, hK.names h.1.2⟩,
    ⟨⟨h.2.1.1.1, h.2.1.1.2.mono hK⟩, h.2.1.2.1, h.2.1.2.2.mono hK⟩,
    ⟨h.2.2.1.1, h.2.2.1.2.mono hK⟩, h.2.2.2.1, h.2.2.2.2.mono hK⟩

theorem Call.Within.mono : ∀ {c : Call} {K K' : Limits}, c.Within K → K'.Allows K → c.Within K'
  | ⟨_, xs⟩, _, _, h, hK => ⟨hK.names h.1, @withinArgs.mono xs _ _ h.2 hK⟩

theorem withinArgs.mono : ∀ {xs : List Expr} {K K' : Limits}, withinArgs xs K → K'.Allows K →
    withinArgs xs K'
  | [], _, _, _, _ => trivial
  | _ :: xs, _, _, h, hK => ⟨⟨h.1.1, h.1.2.mono hK⟩, @withinArgs.mono xs _ _ h.2 hK⟩

theorem withinGuard.mono : ∀ {g : Option Call} {K K' : Limits}, withinGuard g K → K'.Allows K →
    withinGuard g K'
  | none, _, _, _, _ => trivial
  | some c, _, _, h, hK => Call.Within.mono (c := c) h hK

theorem Domain.Closed.mono : ∀ {d : Domain} {K K' : Limits}, d.Closed K →
    K.domains ⊆ K'.domains → d.Closed K'
  | .any, _, _, _, _ => trivial
  | .pending, _, _, h, _ => h.elim
  | .restricted c, _, _, h, hK => Call.Within.mono (c := c) h (Limits.allows_closed hK)

theorem withinClosed.mono : ∀ {d : Option Domain} {K K' : Limits}, withinClosed d K →
    K.domains ⊆ K'.domains → withinClosed d K'
  | none, _, _, _, _ => trivial
  | some d, _, _, h, hK => Domain.Closed.mono (d := d) h hK

end

section

variable {I : Interpretation} {K : Limits} {τ τ' : Valuation}

mutual

theorem Expr.operand_congr : ∀ {x : Expr}, x.Within K → (∀ v ∈ K.vars, τ v = τ' v) →
    x.operand I τ = x.operand I τ'
  | ⟨f, _⟩, h, hτ => Form.operand_congr (f := f) h.1 hτ

theorem Form.operand_congr {D : Sense} : ∀ {f : Form}, f.Within K →
    (∀ v ∈ K.vars, τ v = τ' v) → f.operand I D τ = f.operand I D τ'
  | .var v, h, hτ => by simp only [Form.operand, hτ v h]
  | .num _, _, _ => rfl
  | .truth _, _, _ => rfl
  | .arith _ _ _, h, hτ => by
    simp only [Form.operand, Expr.operand_congr h.1.2 hτ, Expr.operand_congr h.2.2 hτ]
  | .compare .., _, _ => rfl
  | .and .., _, _ => rfl
  | .or .., _, _ => rfl
  | .not _, _, _ => rfl
  | .forSome .., _, _ => rfl
  | .call _, _, _ => rfl
  | .automaton _, _, _ => rfl
  | .index .., _, _ => rfl
  | .rangeEq .., _, _ => rfl

end

theorem operands_congr : ∀ {xs : List Expr}, withinArgs xs K → (∀ v ∈ K.vars, τ v = τ' v) →
    operands I xs τ = operands I xs τ'
  | [], _, _ => rfl
  | _ :: _, h, hτ => congrArg₂ List.cons (Expr.operand_congr h.1.2 hτ) (operands_congr h.2 hτ)

theorem Call.holds_congr {c : Call} (h : c.Within K) (hτ : ∀ v ∈ K.vars, τ v = τ' v) (n : Nat) :
    c.Holds I n τ ↔ c.Holds I n τ' := by
  obtain ⟨name, xs⟩ := c
  simp only [Call.Holds, operands_congr h.2 hτ]

end

section

variable {I : Interpretation} {a b : String}

mutual

theorem Expr.value?_subst : ∀ x : Expr, (x.subst a b).value? = x.value?
  | ⟨f, _⟩ => Form.value?_subst f

theorem Form.value?_subst : ∀ f : Form, (f.subst a b).value? = f.value?
  | .arith _ x y => by simp only [Form.subst, Form.value?, Expr.value?_subst x, Expr.value?_subst y]
  | .var _ => rfl
  | .num _ => rfl
  | .truth _ => rfl
  | .compare .. => rfl
  | .and .. => rfl
  | .or .. => rfl
  | .not _ => rfl
  | .forSome v g x => by
    rw [Form.subst]
    split <;> rfl
  | .call _ => rfl
  | .automaton _ => rfl
  | .index .. => rfl
  | .rangeEq .. => rfl

end

theorem Expr.isFormula_subst (x : Expr) : (x.subst a b).isFormula = x.isFormula := by
  obtain ⟨f, d⟩ := x
  cases f with
  | forSome v g x => by_cases hv : v = a <;> simp [Expr.subst, Form.subst, Expr.isFormula, hv]
  | _ => rfl

mutual

theorem Expr.operand_subst (τ : Valuation) : ∀ x : Expr,
    (x.subst a b).operand I τ = x.operand I (Function.update τ a (τ b))
  | ⟨f, _⟩ => Form.operand_subst τ f

theorem Form.operand_subst {D : Sense} (τ : Valuation) : ∀ f : Form,
    (f.subst a b).operand I D τ = f.operand I D (Function.update τ a (τ b))
  | .var v => by
    simp only [Form.subst, Form.operand, substName, Function.update_apply]
    split <;> rfl
  | .num _ => rfl
  | .truth _ => rfl
  | .arith op x y => by
    have hvalue := Form.value?_subst (a := a) (b := b) (.arith op x y)
    simp only [Form.subst] at hvalue
    simp only [Form.subst, Form.operand, hvalue, Expr.value?_subst, Expr.operand_subst τ x,
      Expr.operand_subst τ y]
  | .compare .. => rfl
  | .and .. => rfl
  | .or .. => rfl
  | .not _ => rfl
  | .forSome .. => by
    rw [Form.subst]
    split <;> rfl
  | .call _ => rfl
  | .automaton _ => rfl
  | .index .. => rfl
  | .rangeEq .. => rfl

end

theorem operands_subst (τ : Valuation) : ∀ xs : List Expr,
    operands I (substArgs a b xs) τ = operands I xs (Function.update τ a (τ b))
  | [] => rfl
  | x :: xs => congrArg₂ List.cons (Expr.operand_subst τ x) (operands_subst τ xs)

theorem Call.holds_subst (c : Call) (n : Nat) (τ : Valuation) :
    (c.subst a b).Holds I n τ ↔ c.Holds I n (Function.update τ a (τ b)) := by
  obtain ⟨name, xs⟩ := c
  simp only [Call.subst, Call.Holds, operands_subst]

theorem Call.holds_instantiate {c : Call} {K : Limits} (hc : c.Within K.closed) (v : String)
    (n : Nat) (τ : Valuation) :
    (c.subst selfName v).Holds I n τ ↔ (Domain.restricted c).Contains I n (τ v) := by
  rw [Call.holds_subst, Domain.Contains]
  refine Call.holds_congr hc (fun u hu => ?_) n
  rw [Set.mem_singleton_iff.1 hu, Function.update_self, Function.update_self]

theorem Form.usesDomain_subst {f : Form} (hf : (⟨f, none⟩ : Expr).isFormula = false) :
    (f.subst a b).usesDomain = f.usesDomain := by
  cases f with
  | arith op x y =>
    have hvalue := Form.value?_subst (a := a) (b := b) (.arith op x y)
    simp only [Form.subst] at hvalue
    cases op <;> simp only [Form.subst, Form.usesDomain, hvalue]
  | var _ => rfl
  | num _ => rfl
  | _ => cases hf

theorem Expr.Within.subst {K K' : Limits} (hK : K.domains ⊆ K'.domains)
    (hvars : ∀ v ∈ K.vars, substName a b v ∈ K'.vars) : ∀ {x : Expr}, x.isFormula = false →
      x.Within K → (x.subst a b).Within K'
  | ⟨.var _, _⟩, _, h => ⟨hvars _ h.1, fun hd => nomatch hd⟩
  | ⟨.num _, d⟩, _, h => ⟨trivial, fun hd => withinClosed.mono (d := d) (h.2 hd) hK⟩
  | ⟨.arith op x y, d⟩, hx, h => by
    refine ⟨⟨⟨?_, Expr.Within.subst hK hvars h.1.1.1 h.1.1.2⟩, ?_,
      Expr.Within.subst hK hvars h.1.2.1 h.1.2.2⟩, fun hd => ?_⟩
    · rw [Expr.isFormula_subst, h.1.1.1]
    · rw [Expr.isFormula_subst, h.1.2.1]
    · rw [Form.usesDomain_subst hx] at hd
      exact withinClosed.mono (h.2 hd) hK

theorem withinArgs.subst {K K' : Limits} (hK : K.domains ⊆ K'.domains)
    (hvars : ∀ v ∈ K.vars, substName a b v ∈ K'.vars) :
    ∀ {xs : List Expr}, withinArgs xs K → withinArgs (substArgs a b xs) K'
  | [], _ => trivial
  | x :: _, h => ⟨⟨(Expr.isFormula_subst x).trans h.1.1, h.1.2.subst hK hvars h.1.1⟩,
    withinArgs.subst hK hvars h.2⟩

theorem Call.Within.subst {K K' : Limits} (hnames : K.names ⊆ K'.names)
    (hK : K.domains ⊆ K'.domains) (hvars : ∀ v ∈ K.vars, substName a b v ∈ K'.vars) {c : Call}
    (h : c.Within K) : (c.subst a b).Within K' := by
  obtain ⟨name, xs⟩ := c
  exact ⟨hnames h.1, withinArgs.subst hK hvars h.2⟩

theorem Call.Within.instantiate {K K' : Limits} {c : Call} (h : c.Within K.closed)
    (hnames : K.domains ⊆ K'.names) (hK : K.domains ⊆ K'.domains) {v : String} (hv : v ∈ K'.vars) :
    (c.subst selfName v).Within K' := by
  refine Call.Within.subst (K := K.closed) hnames hK (fun u hu => ?_) h
  rw [Set.mem_singleton_iff.1 hu, substName, if_pos rfl]
  exact hv

end

end RegularArithmetic
