import RegularArithmetic.Proofs.Meaning.FreeVariables
import RegularArithmetic.Proofs.Meaning.Satisfaction

/-!
What an equation between two ranges says of numbers. Its bounds are values of partial subtraction,
so a range that ends before it starts makes it false, and two empty ranges make it true.
-/

set_option autoImplicit false

namespace RegularArithmetic

open Operand (known Joined Related related_iff is_known is_sum)

section

variable {Γ : Relations} {r q : String} {s e t f : Expr} {τ τ' : Valuation}

/-- All four bounds have numbers. Neither range ends before it starts, both are equally long, and
the predicates agree at each place of the one and the same place of the other. -/
def RangesMatch (Γ : Relations) (r : String) (s e : Expr) (q : String) (t f : Expr)
    (τ : Valuation) : Prop :=
  ∃ a b c d, s.number τ = some a ∧ e.number τ = some b ∧ t.number τ = some c ∧
    f.number τ = some d ∧ a ≤ b ∧ c ≤ d ∧ b - a = d - c ∧
      ∀ i < b - a, (Γ r [a + i] ↔ Γ q [c + i])

theorem rangesMatch_congr
    (h : ∀ v ∈ (Form.rangeEq r s e q t f).freeVars, τ v = τ' v) :
    RangesMatch Γ r s e q t f τ ↔ RangesMatch Γ r s e q t f τ' := by
  obtain ⟨hleft, hright⟩ := List.forall_mem_append.1 h
  obtain ⟨hs, he⟩ := List.forall_mem_append.1 hleft
  obtain ⟨ht, hf⟩ := List.forall_mem_append.1 hright
  simp only [RangesMatch, Expr.number_congr hs, Expr.number_congr he, Expr.number_congr ht,
    Expr.number_congr hf]

theorem number_sub_eq_some {k : Nat} :
    (Form.arith .sub e s).number τ = some k ↔
      ∃ a b, s.number τ = some a ∧ e.number τ = some b ∧ a ≤ b ∧ k = b - a := by
  have hsub : (Form.arith .sub e s).number τ =
      e.number τ >>= fun b => s.number τ >>= fun a => if a ≤ b then some (b - a) else none := rfl
  rw [hsub]
  cases hs : s.number τ with
  | none => cases e.number τ <;> simp
  | some a => cases e.number τ <;> simp [eq_comm]

theorem rangesMatch_erase :
    RangesMatch Γ r s.erase e.erase q t.erase f.erase τ ↔ RangesMatch Γ r s e q t f τ := by
  simp only [RangesMatch, Expr.number_erase]

end

section

variable {I : Interpretation} {Γ : Relations} {n : Nat}

/-- Where the lengths and what holds at a place are exact, ranges agree if both have one length and
agree below it. Places below the length have room wherever the length has. -/
theorem rangesAgree_iff (hI : I.Follows Γ) (hΓ : Γ.Count) {x y : Operand} {o p : Option Nat}
    (hx : x.Is n o) (hy : y.Is n p) {P Q : Nat → Nat → Prop} {P' Q' : Nat → Prop}
    (hP : ∀ k ≥ n, ∀ i < 2 ^ k, (P i k ↔ P' i)) (hQ : ∀ k ≥ n, ∀ i < 2 ^ k, (Q i k ↔ Q' i)) :
    RangesAgree I x y P Q n ↔ ∃ a, o = some a ∧ p = some a ∧ ∀ i < a, (P' i ↔ Q' i) := by
  have hlength : ∀ {z : Operand} {l : Option Nat} {m a : Nat}, z.Is n l → n ≤ m → a < 2 ^ m →
      (Related I "equal" (known a) z m ↔ l = some a) := by
    intro z l m a hz hm ha
    rw [related_iff hI (is_known ha) (hz.mono hm), hΓ.equal]
    simp [Binary.AreEqual]
  have hbelow : ∀ {k i a : Nat}, i < 2 ^ k → a < 2 ^ k →
      (Related I "less" (known i) (known a) k ↔ i < a) := by
    intro k i a hi ha
    rw [related_iff hI (is_known hi) (is_known ha), hΓ.less]
    simp [Binary.IsLess]
  constructor
  · rintro ⟨m, hm, a, ha, ⟨hxa, hya⟩, hagree⟩
    refine ⟨a, (hlength hx hm ha).1 hxa, (hlength hy hm ha).1 hya, fun i hi => ?_⟩
    have hroom : i < 2 ^ m := hi.trans ha
    by_contra hnot
    refine hagree ⟨m, le_rfl, i, hroom, ?_⟩
    rw [hbelow hroom ha, hP m hm i hroom, hQ m hm i hroom]
    exact fun h => h.elim (fun hless => hless hi) hnot
  · rintro ⟨a, rfl, rfl, hagree⟩
    have ha : a < 2 ^ max n a := Nat.lt_of_lt_of_le Nat.lt_two_pow_self
      (Nat.pow_le_pow_right (by decide) (le_max_right n a))
    have hm := le_max_left n a
    refine ⟨max n a, hm, a, ha, ⟨(hlength hx hm ha).2 rfl, (hlength hy hm ha).2 rfl⟩, ?_⟩
    rintro ⟨k, hk, i, hi, hnot⟩
    have hwide : a < 2 ^ k := Nat.lt_of_lt_of_le ha (Nat.pow_le_pow_right (by decide) hk)
    rw [hbelow hi hwide, hP k (hm.trans hk) i hi, hQ k (hm.trans hk) i hi] at hnot
    by_cases hia : i < a
    · exact hnot (.inr (hagree i hia))
    · exact hnot (.inl hia)

variable {N : Set String} {r q : String} {s e t f : Expr} {τ : Valuation}

theorem joined_place_iff (hI : I.Follows Γ) (hΓ : Γ.Count) {x : Operand} {o : Option Nat}
    (hx : x.Is n o) (k : Nat) (hk : n ≤ k) (i : Nat) (hi : i < 2 ^ k) :
    Joined [.sum I x (known i)] (I.holds r) k ↔ ∃ a, o = some a ∧ Γ r [a + i] := by
  have hsum := is_sum hI hΓ (hx.mono hk) (is_known hi)
  have hholds : I.holds r = fun _ => Γ r := funext (hI.holds r)
  rw [hholds, Operand.joined_iff (.cons hsum .nil)]
  cases o with
  | none =>
    constructor
    · rintro ⟨as, has, -⟩
      obtain _ | ⟨⟨⟩, _⟩ := has
    · rintro ⟨a, ⟨⟩, -⟩
  | some a =>
    constructor
    · rintro ⟨as, has, hr⟩
      obtain _ | ⟨⟨⟩, _ | _⟩ := has
      exact ⟨a, rfl, hr⟩
    · rintro ⟨_, ⟨⟩, hr⟩
      exact ⟨[a + i], .cons rfl .nil, hr⟩

theorem holds_rangeEq_iff (hI : I.Follows Γ) (hΓ : Γ.Count) {B : Bounds} (hτ : ∀ v, τ v < 2 ^ n)
    (hplain : plainArgs settledOpen N [s, e, t, f]) :
    (Form.rangeEq r s e q t f).Holds I B n τ ↔ RangesMatch Γ r s e q t f τ := by
  obtain ⟨hs, he, ht, hf, -⟩ := hplain
  have hanything : I.anything.IsOpen := ⟨fun _ _ => trivial, fun k => hI.known .any k⟩
  have hoperand : ∀ {x : Expr}, x.isFormula = false ∧ x.IsPlain settledOpen N →
      (x.operand I τ).Is n (x.number τ) := fun hx => Expr.is_operand hI hΓ hτ hx.1 hx.2
  have hlength : ∀ {x y : Expr}, (x.isFormula = false ∧ x.IsPlain settledOpen N) →
      (y.isFormula = false ∧ y.IsPlain settledOpen N) →
      ((Form.arith .sub x y).operand I I.anything τ).Is n ((Form.arith .sub x y).number τ) :=
    fun {x y} hx hy => Form.is_operand (f := .arith .sub x y) (d := none) hI hΓ hτ hanything rfl
      ⟨hx, hy⟩
  have hagree := rangesAgree_iff hI hΓ (hlength he hs) (hlength hf ht)
    (joined_place_iff (r := r) hI hΓ (hoperand hs)) (joined_place_iff (r := q) hI hΓ (hoperand ht))
  refine hagree.trans ⟨?_, ?_⟩
  · rintro ⟨k, hk, hk', hplaces⟩
    obtain ⟨a, b, ha, hb, hab, rfl⟩ := number_sub_eq_some.1 hk
    obtain ⟨c, d, hc, hd, hcd, heq⟩ := number_sub_eq_some.1 hk'
    refine ⟨a, b, c, d, ha, hb, hc, hd, hab, hcd, heq, fun i hi => ?_⟩
    simpa [ha, hc] using hplaces i hi
  · rintro ⟨a, b, c, d, ha, hb, hc, hd, hab, hcd, heq, hplaces⟩
    refine ⟨b - a, number_sub_eq_some.2 ⟨a, b, ha, hb, hab, rfl⟩,
      number_sub_eq_some.2 ⟨c, d, hc, hd, hcd, heq⟩, fun i hi => ?_⟩
    simpa [ha, hc] using hplaces i hi

end

end RegularArithmetic
