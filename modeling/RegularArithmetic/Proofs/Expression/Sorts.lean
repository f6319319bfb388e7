import RegularArithmetic.Proofs.Meaning.Simplification

/-!
Simplifying and the sorts of expressions, which are formulas or stand for numbers. A well-sorted
expression stays so. An ill-sorted one stays so as well where every connective joins formulas and
none is decided by one operand alone; otherwise the rules may take away the part that is ill-sorted.
-/

set_option autoImplicit false

namespace RegularArithmetic

/-- The values of the operands, as far as they are known, suffice to carry out the operation. -/
def Operation.Feasible (op : Operation) (m n : Option Nat) : Prop :=
  match op with
  | add | sub => True
  | mul => m ≠ none ∨ n ≠ none
  | div => ∃ a b, m = some a ∧ n = some b ∧ div.apply? a b ≠ none

theorem Operation.feasible_of_apply? {op : Operation} {m n : Option Nat} {a b k : Nat}
    (hm : m = some a) (hn : n = some b) (h : op.apply? a b = some k) : op.Feasible m n := by
  subst hm hn
  cases op with
  | add | sub => trivial
  | mul => exact .inl nofun
  | div => exact ⟨a, b, rfl, rfl, Option.ne_none_iff_exists'.2 ⟨k, h⟩⟩

namespace Form

/-- The operands are of the sorts that the form is for. -/
def FitsOperands (f : Form) : Prop :=
  match f with
  | .and .. | .or .. | .not _ | .forSome .. => ∀ x ∈ f.operands, x.isFormula = true
  | .compare op x y => x.isFormula = y.isFormula ∧ (op = .less → x.isFormula = false)
  | .arith op x y =>
    (∀ z ∈ f.operands, z.isFormula = false) ∧ op.Feasible x.value? y.value?
  | _ => ∀ x ∈ f.operands, x.isFormula = false

/-- If the form is a connective, then of formulas. -/
def JoinsFormulas (f : Form) : Prop :=
  match f with
  | .and .. | .or .. | .not _ => ∀ x ∈ f.operands, x.isFormula = true
  | _ => True

/-- One operand, being a constant, decides the connective. -/
def IsDecided : Form → Prop
  | .and x y => x.form = .truth false ∨ y.form = .truth false
  | .or x y => x.form = .truth true ∨ y.form = .truth true
  | _ => False

theorem FitsOperands.joinsFormulas {f : Form} (h : f.FitsOperands) : f.JoinsFormulas := by
  cases f with
  | and x y | or x y | not x => exact h
  | _ => trivial

end Form

namespace Expr

variable {x y z : Expr}

/-- All connectives in the expression join formulas. -/
def IsWellJoined (x : Expr) : Prop := ∀ y, IsPart y x → y.form.JoinsFormulas

/-- Everywhere in the expression the operands are of the sorts that they should be of. -/
def IsWellSorted (x : Expr) : Prop := ∀ y, IsPart y x → y.form.FitsOperands

theorem IsWellSorted.isWellJoined (h : x.IsWellSorted) : x.IsWellJoined := fun y hy =>
  (h y hy).joinsFormulas

theorem isWellJoined_iff :
    x.IsWellJoined ↔ x.form.JoinsFormulas ∧ ∀ y ∈ x.form.operands, y.IsWellJoined :=
  forall_isPart_iff

theorem isWellSorted_iff :
    x.IsWellSorted ↔ x.form.FitsOperands ∧ ∀ y ∈ x.form.operands, y.IsWellSorted :=
  forall_isPart_iff

/-- `y` is of the sort of `x` and has its value. -/
structure SameSort (x y : Expr) : Prop where
  isFormula : y.isFormula = x.isFormula
  value? : y.value? = x.value?

namespace SameSort

theorem trans (h : x.SameSort y) (h' : y.SameSort z) : x.SameSort z :=
  ⟨h'.isFormula.trans h.isFormula, h'.value?.trans h.value?⟩

theorem of_formulas (hx : x.isFormula = true) (hy : y.isFormula = true) : x.SameSort y :=
  ⟨hy.trans hx.symm, (value?_of_isFormula hy).trans (value?_of_isFormula hx).symm⟩

theorem forall_isFormula_iff {xs ys : List Expr} (h : List.Forall₂ SameSort xs ys) (b : Bool) :
    (∀ y ∈ ys, y.isFormula = b) ↔ ∀ x ∈ xs, x.isFormula = b := by
  induction h with
  | nil => rfl
  | cons hxy _ ih => simp only [List.forall_mem_cons, hxy.isFormula, ih]

end SameSort

end Expr

namespace Form.Alike

theorem sameSort {x : Expr} {g : Form} (h : x.form.Alike Expr.SameSort g) (d : Option Domain) :
    x.SameSort ⟨g, d⟩ := by
  obtain ⟨f, e⟩ := x
  cases h with
  | leaf _ => exact ⟨rfl, rfl⟩
  | arith op hx hy =>
    refine ⟨rfl, ?_⟩
    simp only [Expr.value?, Form.value?, hx.value?, hy.value?]
  | _ => exact .of_formulas rfl rfl

variable {f g : Form} (h : f.Alike Expr.SameSort g)

include h

theorem joinsFormulas_iff : g.JoinsFormulas ↔ f.JoinsFormulas := by
  have hiff := Expr.SameSort.forall_isFormula_iff h.operands true
  cases h with
  | leaf _ => rfl
  | and _ _ | or _ _ | not _ => exact hiff
  | _ => rfl

theorem fitsOperands_iff : g.FitsOperands ↔ f.FitsOperands := by
  have hiff := Expr.SameSort.forall_isFormula_iff h.operands
  cases h with
  | leaf _ => rfl
  | arith op hx hy =>
    refine and_congr (hiff false) ?_
    rw [hx.value?, hy.value?]
  | compare op hx hy => simp only [FitsOperands, hx.isFormula, hy.isFormula]
  | and _ _ | or _ _ | not _ | forSome _ _ _ => exact hiff true
  | call _ _ | index _ _ | rangeEq _ _ _ _ _ _ => exact hiff false

end Form.Alike

namespace Expr

variable {x y z : Expr} {n : Nat}

theorem isWellSorted_of_truth {b : Bool} (h : x.form = .truth b) : x.IsWellSorted := by
  obtain ⟨f, d⟩ := x
  obtain rfl : f = .truth b := h
  exact isWellSorted_iff.2 ⟨nofun, nofun⟩

theorem isFormula_of_value? {k : Nat} (h : x.value? = some k) : x.isFormula = false :=
  Bool.eq_false_iff.2 fun hx => nomatch h.symm.trans (value?_of_isFormula hx)

/-- What has a value stands for a number, is put together from numbers only, and all operations in
it can be carried out. -/
theorem isWellSorted_of_value? {k : Nat} (h : x.value? = some k) : x.IsWellSorted := by
  induction x using induction_on_operands generalizing k with
  | h x ih =>
    obtain ⟨f, d⟩ := x
    cases f with
    | num _ => exact isWellSorted_iff.2 ⟨nofun, nofun⟩
    | arith op u v =>
      obtain ⟨a, ha, b, hb, hop⟩ : ∃ a, u.value? = some a ∧ ∃ b, v.value? = some b ∧
          op.apply? a b = some k := by
        simpa only [value?, Form.value?, Option.bind_eq_bind, Option.bind_eq_some_iff] using h
      obtain ⟨hu, hv⟩ := forall_mem_pair.1 ih
      refine isWellSorted_iff.2 ⟨⟨forall_mem_pair.2 ⟨?_, ?_⟩, ?_⟩, forall_mem_pair.2 ⟨hu ha, hv hb⟩⟩
      · exact isFormula_of_value? ha
      · exact isFormula_of_value? hb
      · exact Operation.feasible_of_apply? ha hb hop
    | _ => cases h

theorem sameSort_simpler? (hx : x.IsWellJoined) (h : x.simpler? = some z) : x.SameSort z := by
  obtain ⟨hroot, hoperands⟩ := isWellJoined_iff.1 hx
  obtain ⟨f, d⟩ := x
  cases f with
  | arith op u v =>
    obtain ⟨k, hk, rfl⟩ := Option.map_eq_some_iff.1 h
    exact ⟨rfl, hk.symm⟩
  | not u =>
    obtain ⟨g, e⟩ := u
    cases g with
    | not v =>
      obtain rfl := Option.some_inj.1 h
      obtain ⟨hv, -⟩ := isWellJoined_iff.1 (hoperands _ List.mem_cons_self)
      exact .of_formulas rfl (hv _ List.mem_cons_self)
    | truth b =>
      obtain rfl := Option.some_inj.1 h
      exact .of_formulas rfl rfl
    | _ => cases h
  | and u v =>
    obtain ⟨hu, hv⟩ := forall_mem_pair.1 hroot
    obtain ⟨rfl, -⟩ | ⟨rfl, -⟩ | ⟨rfl, -⟩ := simplerAnd?_cases h
    · exact .of_formulas rfl rfl
    · exact .of_formulas rfl hu
    · exact .of_formulas rfl hv
  | or u v =>
    obtain ⟨hu, hv⟩ := forall_mem_pair.1 hroot
    obtain ⟨rfl, -⟩ | ⟨rfl, -⟩ | ⟨rfl, -⟩ := simplerOr?_cases h
    · exact .of_formulas rfl rfl
    · exact .of_formulas rfl hu
    · exact .of_formulas rfl hv
  | _ => cases h

/-- A step at the root of a connective that is not decided takes nothing away that is
ill-sorted. -/
theorem isWellSorted_of_simpler? (hx : x.IsWellJoined) (hroot : ¬x.form.IsDecided)
    (h : x.simpler? = some z) (hz : z.IsWellSorted) : x.IsWellSorted := by
  obtain ⟨f, d⟩ := x
  cases f with
  | arith op u v =>
    obtain ⟨k, hk, -⟩ := Option.map_eq_some_iff.1 h
    exact isWellSorted_of_value? hk
  | not u =>
    obtain ⟨hjoins, hoperands⟩ := isWellJoined_iff.1 hx
    refine isWellSorted_iff.2 ⟨hjoins, List.forall_mem_singleton.2 ?_⟩
    obtain ⟨g, e⟩ := u
    cases g with
    | not v =>
      obtain rfl := Option.some_inj.1 h
      obtain ⟨hv, -⟩ := isWellJoined_iff.1 (hoperands _ List.mem_cons_self)
      exact isWellSorted_iff.2 ⟨hv, List.forall_mem_singleton.2 hz⟩
    | truth b => exact isWellSorted_iff.2 ⟨nofun, nofun⟩
    | _ => cases h
  | and u v =>
    obtain ⟨hjoins, -⟩ := isWellJoined_iff.1 hx
    refine isWellSorted_iff.2 ⟨hjoins, forall_mem_pair.2 ?_⟩
    obtain ⟨-, hdecided⟩ | ⟨rfl, hv | rfl⟩ | ⟨rfl, hu⟩ := simplerAnd?_cases h
    · exact absurd hdecided hroot
    · exact ⟨hz, isWellSorted_of_truth hv⟩
    · exact ⟨hz, hz⟩
    · exact ⟨isWellSorted_of_truth hu, hz⟩
  | or u v =>
    obtain ⟨hjoins, -⟩ := isWellJoined_iff.1 hx
    refine isWellSorted_iff.2 ⟨hjoins, forall_mem_pair.2 ?_⟩
    obtain ⟨-, hdecided⟩ | ⟨rfl, hv | rfl⟩ | ⟨rfl, hu⟩ := simplerOr?_cases h
    · exact absurd hdecided hroot
    · exact ⟨hz, isWellSorted_of_truth hv⟩
    · exact ⟨hz, hz⟩
    · exact ⟨isWellSorted_of_truth hu, hz⟩
  | _ => cases h

theorem keepsSort_of_alike {g : Form} (hroot : x.form.JoinsFormulas)
    (hg : x.form.Alike (fun y z => y.SameSort z ∧ z.IsWellJoined) g) (d : Option Domain) :
    x.SameSort ⟨g, d⟩ ∧ IsWellJoined ⟨g, d⟩ := by
  have halike : x.form.Alike SameSort g := hg.imp fun _ _ _ h => h.1
  refine ⟨halike.sameSort d, isWellJoined_iff.2 ⟨halike.joinsFormulas_iff.2 hroot, fun u hu => ?_⟩⟩
  obtain ⟨y, -, -, hjoined⟩ := exists_mem_of_forall₂ hg.operands.flip hu
  exact hjoined

theorem sameSort_simplify (h : x.IsWellJoined) (n : Nat) :
    x.SameSort (x.simplify n).1 ∧ (x.simplify n).1.IsWellJoined := by
  induction x using induction_on_operands generalizing n with
  | h x ih =>
    obtain ⟨hroot, hoperands⟩ := isWellJoined_iff.1 h
    obtain ⟨g, hg, hstep⟩ := x.simplify_cases n
    have hkept : x.form.Alike (fun y z => y.SameSort z ∧ z.IsWellJoined) g :=
      hg.imp fun y hy _ ⟨m, hz⟩ => hz ▸ ih y hy (hoperands y hy) m
    obtain ⟨hsame, hjoined⟩ := keepsSort_of_alike hroot hkept x.domain
    obtain hsome | ⟨-, hidle⟩ := hstep
    · refine ⟨hsame.trans (sameSort_simpler? hjoined hsome), ?_⟩
      have hparts := (isWellJoined_iff.1 hjoined).2
      exact forall_isPart_of_simpler? (fun _ _ => trivial) (fun _ => trivial) hparts hsome
    · rw [hidle]
      exact ⟨hsame, hjoined⟩

section

variable {g : Form} (h : x.IsWellJoined) (hg : x.form.Alike SimplifiesTo g)

include h hg

theorem IsWellJoined.alike : x.form.Alike (fun y z => y.SameSort z ∧ z.IsWellJoined) g :=
  hg.imp fun y hy _ ⟨m, hz⟩ => hz ▸ sameSort_simplify ((isWellJoined_iff.1 h).2 y hy) m

theorem IsWellJoined.simplified (d : Option Domain) : IsWellJoined ⟨g, d⟩ :=
  (keepsSort_of_alike (isWellJoined_iff.1 h).1 (h.alike hg) d).2

theorem IsWellJoined.fitsOperands_iff : g.FitsOperands ↔ x.form.FitsOperands :=
  ((h.alike hg).imp fun _ _ _ h => h.1).fitsOperands_iff

end

/-- Simplifying a well-sorted expression gives a well-sorted one. -/
theorem isWellSorted_simplify (h : x.IsWellSorted) (n : Nat) : (x.simplify n).1.IsWellSorted := by
  induction x using induction_on_operands generalizing n with
  | h x ih =>
    obtain ⟨hroot, hoperands⟩ := isWellSorted_iff.1 h
    obtain ⟨g, hg, hstep⟩ := x.simplify_cases n
    have hparts : ∀ u ∈ g.operands, u.IsWellSorted := by
      intro u hu
      obtain ⟨y, hy, m, rfl⟩ := exists_mem_of_forall₂ hg.operands.flip hu
      exact ih y hy (hoperands y hy) m
    obtain hsome | ⟨-, hidle⟩ := hstep
    · exact forall_isPart_of_simpler? (fun _ _ => nofun) (fun _ => nofun) hparts hsome
    · rw [hidle]
      have hfits := (h.isWellJoined.fitsOperands_iff hg).2 hroot
      exact isWellSorted_iff.2 ⟨hfits, hparts⟩

/-- No connective in the expression is decided by what one of its operands is simplified to. -/
def IsUndecided (x : Expr) : Prop :=
  ∀ y, IsPart y x → ∀ g, y.form.Alike SimplifiesTo g → ¬g.IsDecided

/-- Where connectives join formulas and none is decided by one operand, simplifying neither takes an
ill-sorted part away nor adds one. -/
theorem isWellSorted_simplify_iff (hjoined : x.IsWellJoined) (hundecided : x.IsUndecided)
    (n : Nat) : (x.simplify n).1.IsWellSorted ↔ x.IsWellSorted := by
  refine ⟨fun h => ?_, fun h => isWellSorted_simplify h n⟩
  induction x using induction_on_operands generalizing n with
  | h x ih =>
    obtain ⟨-, hjoinedOperands⟩ := isWellJoined_iff.1 hjoined
    obtain ⟨hroot, hundecidedOperands⟩ := forall_isPart_iff.1 hundecided
    obtain ⟨g, hg, hstep⟩ := x.simplify_cases n
    have hsorted : IsWellSorted ⟨g, x.domain⟩ := by
      obtain hsome | ⟨-, hidle⟩ := hstep
      · exact isWellSorted_of_simpler? (hjoined.simplified hg _) (hroot g hg) hsome h
      · rwa [hidle] at h
    obtain ⟨hfits, hparts⟩ := isWellSorted_iff.1 hsorted
    refine isWellSorted_iff.2 ⟨(hjoined.fitsOperands_iff hg).1 hfits, fun y hy => ?_⟩
    obtain ⟨u, hu, m, rfl⟩ := exists_mem_of_forall₂ hg.operands hy
    exact ih y hy (hjoinedOperands y hy) (hundecidedOperands y hy) m (hparts _ hu)

/-- An equation with the product of two variables stays ill-sorted. -/
theorem isWellSorted_simplify_iff_square :
    ¬((equal (arith .mul (var "x") (var "x")) (num 1)).simplify 0).1.IsWellSorted := by
  have hparts : ∀ {P : Expr → Prop}, P (equal (arith .mul (var "x") (var "x")) (num 1)) →
      P (arith .mul (var "x") (var "x")) → P (var "x") → P (num 1) →
      ∀ y, IsPart y (equal (arith .mul (var "x") (var "x")) (num 1)) → P y := by
    intro P hequation hproduct hvar hone
    have hleaf : ∀ {x : Expr}, x.form.operands = [] → P x → ∀ y, IsPart y x → P y :=
      fun hnone hx => forall_isPart_iff.2 ⟨hx, fun y hy => absurd (hnone ▸ hy) List.not_mem_nil⟩
    refine forall_isPart_iff.2 ⟨hequation, List.forall_mem_cons.2
      ⟨forall_isPart_iff.2 ⟨hproduct, ?_⟩, List.forall_mem_singleton.2 (hleaf rfl hone)⟩⟩
    exact List.forall_mem_cons.2 ⟨hleaf rfl hvar, List.forall_mem_singleton.2 (hleaf rfl hvar)⟩
  have hundecided : IsUndecided (equal (arith .mul (var "x") (var "x")) (num 1)) := by
    refine hparts ?_ ?_ ?_ ?_ <;> rintro g ⟨⟩ <;> exact id
  rw [isWellSorted_simplify_iff (hparts trivial trivial trivial trivial) hundecided 0]
  intro hsorted
  have hproduct := (isWellSorted_iff.1 hsorted).2 _ List.mem_cons_self
  obtain ⟨-, hne | hne⟩ := (isWellSorted_iff.1 hproduct).1 <;> exact hne rfl

-- `x = !!y` compares a number with a formula, and becomes a comparison of numbers.
example : ((equal (var "x") (not (not (var "y")))).simplify 0).1 = equal (var "x") (var "y") := rfl

-- The product of two variables goes away with the conjunction that is false.
example :
    ((and (equal (arith .mul (var "x") (var "x")) (num 1)) (truth false)).simplify 0).1 =
      truth false := rfl

end Expr

end RegularArithmetic
