import RegularArithmetic.Proofs.Expression.Parts
import RegularArithmetic.Proofs.Meaning.Satisfaction

/-!
Simplifying a plain expression does not change what it says.
-/

set_option autoImplicit false

namespace RegularArithmetic

section

variable {x : Expr}

theorem Expr.value?_of_isFormula (h : x.isFormula = true) : x.value? = none := by
  obtain ⟨f, d⟩ := x
  cases f <;> first | rfl | cases h

theorem Expr.number_of_isFormula (h : x.isFormula = true) (τ : Valuation) :
    x.number τ = none := by
  obtain ⟨f, d⟩ := x
  cases f <;> first | rfl | cases h

end

/-- `y` is a plain expression of the same kind that says what `x` does. -/
structure Expr.Restates (N : Set String) (x y : Expr) : Prop where
  plain : y.IsPlain settledOpen N
  isFormula : y.isFormula = x.isFormula
  value? : y.value? = x.value?
  number : ∀ τ, y.number τ = x.number τ
  satisfied_iff : ∀ Γ τ, y.Satisfied Γ τ ↔ x.Satisfied Γ τ

namespace Expr.Restates

variable {N : Set String} {x y z : Expr}

theorem refl (h : x.IsPlain settledOpen N) : x.Restates N x :=
  ⟨h, rfl, rfl, fun _ => rfl, fun _ _ => Iff.rfl⟩

theorem trans (h : x.Restates N y) (h' : y.Restates N z) : x.Restates N z where
  plain := h'.plain
  isFormula := h'.isFormula.trans h.isFormula
  value? := h'.value?.trans h.value?
  number τ := (h'.number τ).trans (h.number τ)
  satisfied_iff Γ τ := (h'.satisfied_iff Γ τ).trans (h.satisfied_iff Γ τ)

/-- Between formulas only the truth matters. -/
theorem of_formulas (hx : x.isFormula = true) (hy : y.isFormula = true)
    (hplain : y.IsPlain settledOpen N) (h : ∀ Γ τ, y.Satisfied Γ τ ↔ x.Satisfied Γ τ) :
    x.Restates N y where
  plain := hplain
  isFormula := hy.trans hx.symm
  value? := (value?_of_isFormula hy).trans (value?_of_isFormula hx).symm
  number τ := (number_of_isFormula hy τ).trans (number_of_isFormula hx τ).symm
  satisfied_iff := h

end Expr.Restates

section

variable {N : Set String} {x y z : Expr}

theorem Expr.satisfied_of_truth {b : Bool} (h : x.form = .truth b) (Γ : Relations) (τ : Valuation) :
    x.Satisfied Γ τ ↔ b = true := by
  obtain ⟨f, d⟩ := x
  obtain rfl : f = .truth b := h
  exact Iff.rfl

theorem Expr.isPlain_truth (b : Bool) :
    (Expr.truth b).isFormula = true ∧ (Expr.truth b).IsPlain settledOpen N :=
  ⟨rfl, .inl rfl, trivial⟩

variable (hx : x.isFormula = true ∧ x.IsPlain settledOpen N)
  (hy : y.isFormula = true ∧ y.IsPlain settledOpen N)

include hx hy

theorem simplerAnd?_spec (h : simplerAnd? x y = some z) :
    (z.isFormula = true ∧ z.IsPlain settledOpen N) ∧
      ∀ Γ τ, z.Satisfied Γ τ ↔ x.Satisfied Γ τ ∧ y.Satisfied Γ τ := by
  have hconstant : ∀ b Γ τ, (Expr.truth b).Satisfied Γ τ ↔ b = true := fun b =>
    Expr.satisfied_of_truth rfl
  unfold simplerAnd? at h
  split at h
  · cases h
    exact ⟨Expr.isPlain_truth false, by simp [hconstant, Expr.satisfied_of_truth ‹x.form = _›]⟩
  · cases h
    exact ⟨Expr.isPlain_truth false, by simp [hconstant, Expr.satisfied_of_truth ‹y.form = _›]⟩
  · cases h
    exact ⟨hy, by simp [Expr.satisfied_of_truth ‹x.form = _›]⟩
  · cases h
    exact ⟨hx, by simp [Expr.satisfied_of_truth ‹y.form = _›]⟩
  · obtain ⟨rfl, hz⟩ := Option.ite_none_right_eq_some.1 h
    cases hz
    exact ⟨hx, by simp⟩

theorem simplerOr?_spec (h : simplerOr? x y = some z) :
    (z.isFormula = true ∧ z.IsPlain settledOpen N) ∧
      ∀ Γ τ, z.Satisfied Γ τ ↔ x.Satisfied Γ τ ∨ y.Satisfied Γ τ := by
  have hconstant : ∀ b Γ τ, (Expr.truth b).Satisfied Γ τ ↔ b = true := fun b =>
    Expr.satisfied_of_truth rfl
  unfold simplerOr? at h
  split at h
  · cases h
    exact ⟨Expr.isPlain_truth true, by simp [hconstant, Expr.satisfied_of_truth ‹x.form = _›]⟩
  · cases h
    exact ⟨Expr.isPlain_truth true, by simp [hconstant, Expr.satisfied_of_truth ‹y.form = _›]⟩
  · cases h
    exact ⟨hy, by simp [Expr.satisfied_of_truth ‹x.form = _›]⟩
  · cases h
    exact ⟨hx, by simp [Expr.satisfied_of_truth ‹y.form = _›]⟩
  · obtain ⟨rfl, hz⟩ := Option.ite_none_right_eq_some.1 h
    cases hz
    exact ⟨hx, by simp⟩

end

section

variable {N : Set String}

theorem Expr.restates_simpler? {x y : Expr} (hx : x.IsPlain settledOpen N)
    (h : x.simpler? = some y) : x.Restates N y := by
  obtain ⟨f, d⟩ := x
  obtain ⟨hd, hf⟩ := hx
  unfold Expr.simpler? at h
  split at h
  · rename_i op u v hform
    obtain rfl : f = .arith op u v := hform
    obtain ⟨k, hk, rfl⟩ := Option.map_eq_some_iff.1 h
    exact ⟨⟨hd, trivial⟩, rfl, hk.symm, fun τ => (Expr.number_of_value? hk).symm,
      fun _ _ => Iff.rfl⟩
  · rename_i u hform
    obtain rfl : f = .not u := hform
    obtain ⟨g, e⟩ := u
    obtain ⟨-, -, hg⟩ := hf
    dsimp only at h
    split at h
    · cases h
      exact .of_formulas rfl hg.1 hg.2 fun Γ τ => Classical.not_not.symm
    · rename_i b
      cases h
      refine .of_formulas rfl rfl ⟨.inl rfl, trivial⟩ fun Γ τ => ?_
      cases b <;> simp [Expr.Satisfied, Form.Satisfied, Expr.truth, Form.plain]
    · cases h
  · rename_i u v hform
    obtain rfl : f = .and u v := hform
    obtain ⟨hy, hiff⟩ := simplerAnd?_spec hf.1 hf.2 h
    exact .of_formulas rfl hy.1 hy.2 hiff
  · rename_i u v hform
    obtain rfl : f = .or u v := hform
    obtain ⟨hy, hiff⟩ := simplerOr?_spec hf.1 hf.2 h
    exact .of_formulas rfl hy.1 hy.2 hiff
  · cases h

theorem Expr.restates_step {x : Expr} (hx : x.IsPlain settledOpen N) (n : Nat) :
    x.Restates N (x.step n).1 := by
  rcases x.step_cases n with hsome | ⟨-, hidle⟩
  · exact restates_simpler? hx hsome
  · rw [hidle]
    exact .refl hx

mutual

/-- Simplifying does not change what the expression says, however many steps it takes. -/
theorem Expr.restates_simplify : ∀ {x : Expr} (n : Nat), x.IsPlain settledOpen N →
    x.Restates N (x.simplify n).1
  | ⟨_, _⟩, n, h =>
    have hparts := Form.restates_simplify n h.1 h.2
    hparts.trans (Expr.restates_step hparts.plain _)

theorem Form.restates_simplify : ∀ {f : Form} {d : Option Domain} (n : Nat), d ∈ settledOpen →
    f.IsPlain settledOpen N → Expr.Restates N ⟨f, d⟩ ⟨(f.simplify n).1, d⟩
  | .arith op x y, d, n, hd, h => by
    have hx := Expr.restates_simplify n h.1.2
    have hy := Expr.restates_simplify (x.simplify n).2 h.2.2
    show Expr.Restates N _ ⟨.arith op (x.simplify n).1 (y.simplify (x.simplify n).2).1, d⟩
    refine ⟨⟨hd, ⟨hx.isFormula.trans h.1.1, hx.plain⟩, hy.isFormula.trans h.2.1, hy.plain⟩, rfl,
      ?_, fun τ => ?_, fun _ _ => Iff.rfl⟩
    · simp only [Expr.value?, Form.value?, hx.value?, hy.value?]
    · simp only [Expr.number, Form.number, hx.value?, hy.value?, hx.number, hy.number]
  | .compare op x y, d, n, hd, h => by
    have hx := Expr.restates_simplify n h.1
    have hy := Expr.restates_simplify (x.simplify n).2 h.2
    refine .of_formulas rfl rfl ⟨hd, hx.plain, hy.plain⟩ fun Γ τ => ?_
    show (Form.compare op (x.simplify n).1 (y.simplify (x.simplify n).2).1).Satisfied Γ τ ↔ _
    simp only [Expr.Satisfied, Form.Satisfied, hx.isFormula, hy.isFormula, hx.number, hy.number,
      hx.satisfied_iff, hy.satisfied_iff]
  | .and x y, d, n, hd, h => by
    have hx := Expr.restates_simplify n h.1.2
    have hy := Expr.restates_simplify (x.simplify n).2 h.2.2
    exact .of_formulas rfl rfl ⟨hd, ⟨hx.isFormula.trans h.1.1, hx.plain⟩,
      hy.isFormula.trans h.2.1, hy.plain⟩ fun Γ τ =>
        and_congr (hx.satisfied_iff Γ τ) (hy.satisfied_iff Γ τ)
  | .or x y, d, n, hd, h => by
    have hx := Expr.restates_simplify n h.1.2
    have hy := Expr.restates_simplify (x.simplify n).2 h.2.2
    exact .of_formulas rfl rfl ⟨hd, ⟨hx.isFormula.trans h.1.1, hx.plain⟩,
      hy.isFormula.trans h.2.1, hy.plain⟩ fun Γ τ =>
        or_congr (hx.satisfied_iff Γ τ) (hy.satisfied_iff Γ τ)
  | .not x, d, n, hd, h => by
    have hx := Expr.restates_simplify n h.2
    exact .of_formulas rfl rfl ⟨hd, hx.isFormula.trans h.1, hx.plain⟩ fun Γ τ =>
      not_congr (hx.satisfied_iff Γ τ)
  | .forSome v g x, d, n, hd, h => by
    have hx := Expr.restates_simplify n h.2.2.2
    exact .of_formulas rfl rfl ⟨hd, h.1, h.2.1, hx.isFormula.trans h.2.2.1, hx.plain⟩ fun Γ τ =>
      exists_congr fun a => hx.satisfied_iff Γ _
  | .call ⟨name, xs⟩, d, n, hd, h => by
    obtain ⟨hplain, hnumbers⟩ := restates_simplifyArgs n h.2
    exact .of_formulas rfl rfl ⟨hd, h.1, hplain⟩ fun Γ τ =>
      exists_congr fun as => and_congr_left' (hnumbers τ as)
  | .index w i, d, n, hd, h => by
    have hi := Expr.restates_simplify n h.2.2
    refine .of_formulas rfl rfl ⟨hd, h.1, hi.isFormula.trans h.2.1, hi.plain⟩ fun Γ τ => ?_
    show (Form.index w (i.simplify n).1).Satisfied Γ τ ↔ _
    simp only [Expr.Satisfied, Form.Satisfied, hi.number]
  | .var _, _, _, hd, h => .refl ⟨hd, h⟩
  | .num _, _, _, hd, h => .refl ⟨hd, h⟩
  | .truth _, _, _, hd, h => .refl ⟨hd, h⟩
  | .automaton _, _, _, _, h => h.elim
  | .rangeEq .., _, _, _, h => h.elim

theorem restates_simplifyArgs : ∀ {xs : List Expr} (n : Nat), plainArgs settledOpen N xs →
    plainArgs settledOpen N (simplifyArgs xs n).1 ∧ ∀ τ as,
      List.Forall₂ (fun x a => x.number τ = some a) (simplifyArgs xs n).1 as ↔
        List.Forall₂ (fun x a => x.number τ = some a) xs as
  | [], _, _ => ⟨trivial, fun _ _ => Iff.rfl⟩
  | x :: xs, n, h => by
    have hx := Expr.restates_simplify n h.1.2
    obtain ⟨hplain, hnumbers⟩ := restates_simplifyArgs (x.simplify n).2 h.2
    refine ⟨⟨⟨hx.isFormula.trans h.1.1, hx.plain⟩, hplain⟩, fun τ as => ?_⟩
    show List.Forall₂ _ ((x.simplify n).1 :: (simplifyArgs xs (x.simplify n).2).1) as ↔ _
    cases as with
    | nil => simp
    | cons a as => rw [List.forall₂_cons, List.forall₂_cons, hx.number, hnumbers]

end

end

end RegularArithmetic
