import RegularArithmetic.Proofs.Meaning.Exact

/-!
In a word that has room for the numbers of its variables, a plain formula says what it says of
these numbers alone.
-/

set_option autoImplicit false

namespace RegularArithmetic

/-- The interpretation in which names say what `Γ` says and literals say `R`; no name is one of a
domain, and nothing is remembered. -/
def Relations.interpretation (Γ : Relations) (R : List Nat → Prop) : Interpretation :=
  ⟨Set.univ, ∅, fun name _ => Γ name, fun _ _ => R, fun _ _ => none⟩

theorem Relations.follows_interpretation (Γ : Relations) (R : List Nat → Prop) :
    (Γ.interpretation R).Follows Γ :=
  ⟨fun _ _ => rfl, fun _ _ => rfl⟩

theorem Operation.result?_of_apply? {op : Operation} {a b k : Nat} (h : op.apply? a b = some k) :
    op.result? a b = some k := by
  cases op with
  | add => exact (Option.ite_none_right_eq_some.1 h).2
  | sub => exact h
  | mul => exact (Option.ite_none_right_eq_some.1 h).2
  | div => exact h

section

variable {τ : Valuation}

mutual

/-- The value of an expression without variables is its number. -/
theorem Expr.number_of_value? : ∀ {x : Expr} {k : Nat}, x.value? = some k → x.number τ = some k
  | ⟨f, _⟩, _, h => Form.number_of_value? (f := f) h

theorem Form.number_of_value? : ∀ {f : Form} {k : Nat}, f.value? = some k → f.number τ = some k
  | .num _, _, h => h
  | .arith op x y, k, h => by
    obtain ⟨a, ha, b, hb, hop⟩ : ∃ a, x.value? = some a ∧ ∃ b, y.value? = some b ∧
        op.apply? a b = some k := by
      simpa only [Form.value?, bind, Option.bind_eq_some_iff] using h
    have hresult := Operation.result?_of_apply? hop
    rw [Form.number, Expr.number_of_value? ha, Expr.number_of_value? hb, ha, hb]
    split
    · obtain ⟨rfl, hzero⟩ := ‹_ ∧ _›
      rw [← hresult, Operation.result?]
      rcases hzero with hzero | hzero <;> cases hzero <;> simp
    · exact hresult
  | .var _, _, h => nomatch h
  | .truth _, _, h => nomatch h
  | .compare .., _, h => nomatch h
  | .and .., _, h => nomatch h
  | .or .., _, h => nomatch h
  | .not _, _, h => nomatch h
  | .forSome .., _, h => nomatch h
  | .call _, _, h => nomatch h
  | .automaton _, _, h => nomatch h
  | .index .., _, h => nomatch h
  | .rangeEq .., _, h => nomatch h

end

variable {I : Interpretation} {Γ : Relations} {N : Set String} {n : Nat}

theorem isOpen_of_settled (hI : I.Follows Γ) {d : Option Domain} (hd : d ∈ settledOpen) :
    Sense.IsOpen ⟨containsOf I d, I.known ((Domain.known? d).getD .any)⟩ where
  contains m a := by
    show containsOf I d m a
    obtain rfl | rfl := hd
    · simp [containsOf]
    · simp [containsOf, Domain.Contains]
  known m := hI.known _ m

mutual

theorem Expr.is_operand (hI : I.Follows Γ) (hΓ : Γ.Count) (hτ : ∀ v, τ v < 2 ^ n) :
    ∀ {x : Expr}, x.isFormula = false → x.IsPlain settledOpen N →
      (x.operand I τ).Is n (x.number τ)
  | ⟨_, _⟩, hx, h => Form.is_operand hI hΓ hτ (isOpen_of_settled hI h.1) hx h.2

theorem Form.is_operand (hI : I.Follows Γ) (hΓ : Γ.Count) (hτ : ∀ v, τ v < 2 ^ n) {D : Sense}
    (hD : D.IsOpen) : ∀ {f : Form} {d : Option Domain}, Expr.isFormula ⟨f, d⟩ = false →
      f.IsPlain settledOpen N → (f.operand I D τ).Is n (f.number τ)
  | .var v, _, _, _ => Operand.is_known (hτ v)
  | .num k, _, _, _ => Operand.is_constant hI hΓ hD k
  | .arith _ _ _, _, _, h => Operand.is_arith hI hΓ hD (Expr.is_operand hI hΓ hτ h.1.1 h.1.2)
    (Expr.is_operand hI hΓ hτ h.2.1 h.2.2) (fun _ hk => Expr.number_of_value? hk)
    (fun _ hk => Expr.number_of_value? hk) rfl fun _ hk => Form.number_of_value? hk

end

theorem are_operands (hI : I.Follows Γ) (hΓ : Γ.Count) (hτ : ∀ v, τ v < 2 ^ n) :
    ∀ {xs : List Expr}, plainArgs settledOpen N xs →
      List.Forall₂ (fun (x : Operand) o => x.Is n o) (operands I xs τ) (xs.map (·.number τ))
  | [], _ => .nil
  | _ :: _, h => .cons (Expr.is_operand hI hΓ hτ h.1.1 h.1.2) (are_operands hI hΓ hτ h.2)

theorem joined_iff_numbers (hI : I.Follows Γ) (hΓ : Γ.Count) (hτ : ∀ v, τ v < 2 ^ n)
    {xs : List Expr} (hxs : plainArgs settledOpen N xs) (name : String) :
    Operand.Joined (operands I xs τ) (I.holds name) n ↔
      ∃ as, List.Forall₂ (fun x a => x.number τ = some a) xs as ∧ Γ name as := by
  have hholds : I.holds name = fun _ => Γ name := funext (hI.holds name)
  rw [hholds, Operand.joined_iff (are_operands hI hΓ hτ hxs)]
  simp only [List.forall₂_map_left_iff]

theorem related_iff_test (op : Comparison) (hI : I.Follows Γ) (hΓ : Γ.Count)
    (hτ : ∀ v, τ v < 2 ^ n) {x y : Expr} (hx : x.isFormula = false) (hxp : x.IsPlain settledOpen N)
    (hy : y.isFormula = false) (hyp : y.IsPlain settledOpen N) :
    Operand.Related I op.relation (x.operand I τ) (y.operand I τ) n ↔
      ∃ a b, x.number τ = some a ∧ y.number τ = some b ∧ op.Test a b := by
  rw [Operand.related_iff hI (Expr.is_operand hI hΓ hτ hx hxp)
    (Expr.is_operand hI hΓ hτ hy hyp)]
  cases op with
  | equal => simp only [Comparison.relation, hΓ.equal, Binary.AreEqual, Comparison.Test]
  | less => simp only [Comparison.relation, hΓ.less, Binary.IsLess, Comparison.Test]

end

section

variable {I : Interpretation} {Γ : Relations} {N : Set String}

mutual

/-- A plain formula holds in a word with room for the numbers of its variables if it is true of
these numbers. A quantified variable may have a larger one: there are longer words. -/
theorem Expr.holds_iff (hI : I.Follows Γ) (hΓ : Γ.Count) : ∀ {x : Expr} {B : Bounds} {n : Nat}
    {τ : Valuation}, x.IsPlain settledOpen N → (∀ v n τ, B v n τ) → (∀ v, τ v < 2 ^ n) →
      (x.Holds I B n τ ↔ x.Satisfied Γ τ)
  | ⟨_, _⟩, _, _, _, h, hB, hτ => Form.holds_iff hI hΓ h.2 hB hτ

theorem Form.holds_iff (hI : I.Follows Γ) (hΓ : Γ.Count) : ∀ {f : Form} {B : Bounds} {n : Nat}
    {τ : Valuation}, f.IsPlain settledOpen N → (∀ v n τ, B v n τ) → (∀ v, τ v < 2 ^ n) →
      (f.Holds I B n τ ↔ f.Satisfied Γ τ)
  | .truth _, _, _, _, _, _, _ => Iff.rfl
  | .and _ _, _, _, _, h, hB, hτ =>
    and_congr (Expr.holds_iff hI hΓ h.1.2 hB hτ) (Expr.holds_iff hI hΓ h.2.2 hB hτ)
  | .or _ _, _, _, _, h, hB, hτ =>
    or_congr (Expr.holds_iff hI hΓ h.1.2 hB hτ) (Expr.holds_iff hI hΓ h.2.2 hB hτ)
  | .not _, _, _, _, h, hB, hτ => not_congr (Expr.holds_iff hI hΓ h.2 hB hτ)
  | .forSome v g x, B, n, τ, h, hB, hτ => by
    obtain ⟨-, rfl, -, hx⟩ := h
    have hbody : ∀ m ≥ n, ∀ a < 2 ^ m,
        (x.Holds I (B.restrict v (GuardHolds I none)) m (Function.update τ v a) ↔
          x.Satisfied Γ (Function.update τ v a)) := by
      intro m hm a ha
      refine Expr.holds_iff hI hΓ hx (fun u k σ => ⟨hB u k σ, fun _ c hc => nomatch hc⟩)
        fun u => ?_
      rw [Function.update_apply]
      split
      · exact ha
      · exact Nat.lt_of_lt_of_le (hτ u) (Nat.pow_le_pow_right (by decide) hm)
    constructor
    · rintro ⟨m, hm, a, ha, -, -, hholds⟩
      exact ⟨a, (hbody m hm a ha).1 hholds⟩
    · rintro ⟨a, ha⟩
      have hroom : a < 2 ^ max n a := Nat.lt_of_lt_of_le Nat.lt_two_pow_self
        (Nat.pow_le_pow_right (by decide) (le_max_right n a))
      exact ⟨max n a, le_max_left n a, a, hroom, (fun c hc => nomatch hc), hB v _ _,
        (hbody _ (le_max_left n a) a hroom).2 ha⟩
  | .call ⟨name, _⟩, _, _, _, h, _, hτ => joined_iff_numbers hI hΓ hτ h.2 name
  | .index name i, _, n, τ, h, _, hτ => by
    have hargs : plainArgs settledOpen N [i] := ⟨⟨h.2.1, h.2.2⟩, trivial⟩
    refine (joined_iff_numbers hI hΓ hτ hargs name).trans ⟨?_, ?_⟩
    · rintro ⟨as, has, hΓ'⟩
      obtain _ | ⟨ha, _ | _⟩ := has
      exact ⟨_, ha, hΓ'⟩
    · rintro ⟨a, ha, hΓ'⟩
      exact ⟨[a], .cons ha .nil, hΓ'⟩
  | .compare op x y, _, _, _, h, hB, hτ => by
    have hx := Expr.holds_iff hI hΓ h.1 hB hτ
    have hy := Expr.holds_iff hI hΓ h.2 hB hτ
    simp only [Form.Holds, Form.Satisfied]
    cases hxf : x.isFormula <;> cases hyf : y.isFormula
    case false.false =>
      have htest := related_iff_test op hI hΓ hτ hxf h.1 hyf h.2
      cases op <;> exact htest
    case true.true =>
      cases op with
      | equal => exact iff_congr hx hy
      | less => exact Iff.rfl
    all_goals cases op <;> exact Iff.rfl
  | .var _, _, _, _, _, _, _ => Iff.rfl
  | .num _, _, _, _, _, _, _ => Iff.rfl
  | .arith .., _, _, _, _, _, _ => Iff.rfl
  | .automaton _, _, _, _, h, _, _ => h.elim
  | .rangeEq .., _, _, _, h, _, _ => h.elim

end

end

/-- All names of the user's own, bound or free, these names of relations and literals. -/
def Limits.own (N : Set String) (L : Set Literal) : Limits :=
  ⟨{v | IsOwn v}, {v | IsOwn v}, N, ∅, L⟩

section

variable {N : Set String} {K : Limits}

theorem withinClosed_of_settled {d : Option Domain} (hd : d ∈ settledOpen) : withinClosed d K := by
  obtain rfl | rfl := hd
  · rw [withinClosed]
    trivial
  · rw [withinClosed]
    trivial

mutual

theorem Expr.IsPlain.within : ∀ {x : Expr} {K : Limits}, (∀ v, IsOwn v → v ∈ K.vars) →
    (∀ v, IsOwn v → v ∈ K.binders) → N ⊆ K.names → x.IsPlain settledOpen N → x.Within K
  | ⟨_, _⟩, _, hvars, hbinders, hN, h =>
    ⟨Form.IsPlain.within hvars hbinders hN h.2, fun _ => withinClosed_of_settled h.1⟩

theorem Form.IsPlain.within : ∀ {f : Form} {K : Limits}, (∀ v, IsOwn v → v ∈ K.vars) →
    (∀ v, IsOwn v → v ∈ K.binders) → N ⊆ K.names → f.IsPlain settledOpen N → f.Within K
  | .var v, _, hvars, _, _, h => hvars v h
  | .num _, _, _, _, _, _ => trivial
  | .truth _, _, _, _, _, _ => trivial
  | .arith .., _, hvars, hbinders, hN, h =>
    ⟨⟨h.1.1, h.1.2.within hvars hbinders hN⟩, h.2.1, h.2.2.within hvars hbinders hN⟩
  | .compare .., _, hvars, hbinders, hN, h =>
    ⟨h.1.within hvars hbinders hN, h.2.within hvars hbinders hN⟩
  | .and .., _, hvars, hbinders, hN, h =>
    ⟨h.1.2.within hvars hbinders hN, h.2.2.within hvars hbinders hN⟩
  | .or .., _, hvars, hbinders, hN, h =>
    ⟨h.1.2.within hvars hbinders hN, h.2.2.within hvars hbinders hN⟩
  | .not _, _, hvars, hbinders, hN, h => h.2.within hvars hbinders hN
  | .forSome v _ x, K, hvars, hbinders, hN, h => by
    obtain ⟨hv, rfl, -, hx⟩ := h
    exact ⟨hbinders v hv, trivial, hx.within (fun u hu => .inr (hvars u hu)) hbinders hN⟩
  | .call ⟨_, xs⟩, _, hvars, hbinders, hN, h => ⟨hN h.1, plainArgs.within hvars hbinders hN h.2⟩
  | .index .., _, hvars, hbinders, hN, h => ⟨hN h.1, h.2.1, h.2.2.within hvars hbinders hN⟩
  | .automaton _, _, _, _, _, h => h.elim
  | .rangeEq .., _, _, _, _, h => h.elim

theorem plainArgs.within : ∀ {xs : List Expr} {K : Limits}, (∀ v, IsOwn v → v ∈ K.vars) →
    (∀ v, IsOwn v → v ∈ K.binders) → N ⊆ K.names → plainArgs settledOpen N xs → withinArgs xs K
  | [], _, _, _, _, _ => trivial
  | _ :: _, _, hvars, hbinders, hN, h =>
    ⟨⟨h.1.1, h.1.2.within hvars hbinders hN⟩, plainArgs.within hvars hbinders hN h.2⟩

end

end

end RegularArithmetic
