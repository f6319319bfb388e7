import Mathlib.Algebra.Order.BigOperators.Group.List
import Mathlib.Algebra.Order.Ring.Canonical
import Mathlib.Algebra.Order.Ring.Nat
import RegularArithmetic.Proofs.Meaning.Plain

/-!
What plain expressions stand for in words that have room for their variables: the number that
they have, or nothing. Larger intermediate numbers have room in longer words.
-/

set_option autoImplicit false

namespace RegularArithmetic

open Binary (IsSum AreEqual IsLess)

/-- The relations that arithmetic and comparisons ask for are the usual ones. -/
structure Relations.Count (Γ : Relations) : Prop where
  adder : Γ "adder" = IsSum
  equal : Γ "equal" = AreEqual
  less : Γ "less" = IsLess

/-- The interpretation says of names what `Γ` says, however long the words are, and nothing is
remembered. -/
structure Interpretation.Follows (I : Interpretation) (Γ : Relations) : Prop where
  holds : ∀ name n, I.holds name n = Γ name
  known : ∀ d n, I.known d n = none

/-- All numbers are in the domain, and nothing is remembered of them. -/
structure Sense.IsOpen (D : Sense) : Prop where
  contains : ∀ n a, D.contains n a
  known : ∀ n, D.known n = none

/-- Of the numbers that a word has room for, the domain contains those in `S`, and nothing is
remembered of them. -/
structure Sense.Comprises (D : Sense) (S : Set Nat) : Prop where
  contains : ∀ n a, a < 2 ^ n → (D.contains n a ↔ a ∈ S)
  known : ∀ n, D.known n = none

theorem Sense.IsOpen.comprises {D : Sense} (h : D.IsOpen) : D.Comprises Set.univ :=
  ⟨fun n a _ => iff_of_true (h.contains n a) trivial, h.known⟩

/-- The number that `n` is in a domain with the numbers `S`: zero if that is one of them, or so many
times the least of the others. -/
def IsConstant (S : Set Nat) (n a : Nat) : Prop :=
  if n = 0 then 0 ∈ S ∧ a = 0 else ∃ u, IsLeast {b | b ∈ S ∧ b ≠ 0} u ∧ a = n * u

namespace IsConstant

variable {S : Set Nat} {n m a b : Nat}

theorem zero_iff : IsConstant S 0 a ↔ 0 ∈ S ∧ a = 0 := by
  rw [IsConstant, if_pos rfl]

theorem iff_of_ne_zero (hn : n ≠ 0) :
    IsConstant S n a ↔ ∃ u, IsLeast {b | b ∈ S ∧ b ≠ 0} u ∧ a = n * u := by
  rw [IsConstant, if_neg hn]

theorem one_iff : IsConstant S 1 a ↔ IsLeast {b | b ∈ S ∧ b ≠ 0} a := by
  rw [iff_of_ne_zero Nat.one_ne_zero]
  constructor
  · rintro ⟨u, hu, rfl⟩
    rwa [Nat.one_mul]
  · exact fun h => ⟨a, h, (Nat.one_mul a).symm⟩

theorem unique (ha : IsConstant S n a) (hb : IsConstant S n b) : a = b := by
  by_cases hn : n = 0
  · subst hn
    rw [(zero_iff.1 ha).2, (zero_iff.1 hb).2]
  · obtain ⟨u, hu, rfl⟩ := (iff_of_ne_zero hn).1 ha
    obtain ⟨u', hu', rfl⟩ := (iff_of_ne_zero hn).1 hb
    rw [hu.unique hu']

theorem ne_zero (hn : n ≠ 0) (h : IsConstant S n a) : a ≠ 0 := by
  obtain ⟨u, hu, rfl⟩ := (iff_of_ne_zero hn).1 h
  exact Nat.mul_ne_zero hn hu.1.2

theorem exists_option (S : Set Nat) (n : Nat) :
    ∃ o : Option Nat, ∀ a, o = some a ↔ IsConstant S n a := by
  by_cases h : ∃ a, IsConstant S n a
  · obtain ⟨a, ha⟩ := h
    exact ⟨some a, fun b => Option.some_inj.trans ⟨fun hab => hab ▸ ha, ha.unique⟩⟩
  · exact ⟨none, fun a => iff_of_false nofun fun ha => h ⟨a, ha⟩⟩

theorem add_iff (hn : n ≠ 0) (hm : m ≠ 0) :
    IsConstant S (n + m) a ↔ ∃ b c, IsConstant S n b ∧ IsConstant S m c ∧ b + c = a := by
  simp only [iff_of_ne_zero hn, iff_of_ne_zero hm, iff_of_ne_zero (show n + m ≠ 0 by omega)]
  constructor
  · rintro ⟨u, hu, rfl⟩
    exact ⟨_, _, ⟨u, hu, rfl⟩, ⟨u, hu, rfl⟩, (Nat.add_mul n m u).symm⟩
  · rintro ⟨_, _, ⟨u, hu, rfl⟩, ⟨u', hu', rfl⟩, rfl⟩
    obtain rfl := hu.unique hu'
    exact ⟨u, hu, (Nat.add_mul n m u).symm⟩

theorem double_iff (hn : n ≠ 0) :
    IsConstant S (2 * n) a ↔ ∃ b, IsConstant S n b ∧ 2 * b = a := by
  rw [Nat.two_mul, add_iff hn hn]
  constructor
  · rintro ⟨b, c, hb, hc, rfl⟩
    exact ⟨b, hb, by rw [hc.unique hb, Nat.two_mul]⟩
  · rintro ⟨b, hb, rfl⟩
    exact ⟨b, b, hb, hb, (Nat.two_mul b).symm⟩

section

variable {o p q : Option Nat} (hp : ∀ a, p = some a ↔ IsConstant S n a)

include hp

theorem eq_map_double (hn : n ≠ 0) (ho : ∀ a, o = some a ↔ IsConstant S (2 * n) a) :
    o = p.map (2 * ·) := by
  refine Option.ext fun a => ?_
  rw [ho, double_iff hn, Option.map_eq_some_iff]
  simp only [hp]

theorem eq_result_add (hq : ∀ a, q = some a ↔ IsConstant S m a) (hn : n ≠ 0) (hm : m ≠ 0)
    (ho : ∀ a, o = some a ↔ IsConstant S (n + m) a) :
    o = (do Operation.add.result? (← p) (← q)) := by
  refine Option.ext fun a => ?_
  rw [ho, add_iff hn hm]
  simp only [← hp, ← hq]
  cases p <;> cases q <;> simp [Operation.result?]

end

theorem univ_iff : IsConstant Set.univ n a ↔ a = n := by
  by_cases hn : n = 0
  · subst hn
    simp [zero_iff]
  · have hone : IsLeast {b : Nat | b ∈ Set.univ ∧ b ≠ 0} 1 :=
      ⟨⟨trivial, Nat.one_ne_zero⟩, fun b hb => Nat.pos_of_ne_zero hb.2⟩
    rw [iff_of_ne_zero hn]
    constructor
    · rintro ⟨u, hu, rfl⟩
      rw [hu.unique hone, Nat.mul_one]
    · rintro rfl
      exact ⟨1, hone, (Nat.mul_one a).symm⟩

end IsConstant

namespace Operand

/-- In words of length `n` or more the operand stands for this number, or for none. -/
structure Is (x : Operand) (n : Nat) (o : Option Nat) : Prop where
  rel : ∀ m ≥ n, ∀ a < 2 ^ m, x.rel m a ↔ o = some a
  room : x.temporary = false → ∀ a ∈ o, a < 2 ^ n

variable {I : Interpretation} {Γ : Relations} {D : Sense} {n : Nat} {x y : Operand}
  {o p : Option Nat}

theorem is_known {a : Nat} (ha : a < 2 ^ n) : (known a).Is n (some a) where
  rel m _ b _ := by rw [Option.some_inj, eq_comm]; rfl
  room _ b hb := Option.some_inj.1 hb ▸ ha

theorem Is.mono {m : Nat} (h : x.Is n o) (hm : n ≤ m) : x.Is m o where
  rel k hk := h.rel k (le_trans hm hk)
  room ht a ha := Nat.lt_of_lt_of_le (h.room ht a ha) (Nat.pow_le_pow_right (by decide) hm)

theorem exists_room (as : List Nat) : ∃ m, ∀ a ∈ as, a < 2 ^ m :=
  ⟨as.sum, fun _ ha => Nat.lt_of_le_of_lt (List.le_sum_of_mem ha) Nat.lt_two_pow_self⟩

theorem joined_iff {xs : List Operand} {os : List (Option Nat)}
    (h : List.Forall₂ (fun x o => x.Is n o) xs os) (R : List Nat → Prop) :
    Joined xs (fun _ => R) n ↔ ∃ as, List.Forall₂ (fun o a => o = some a) os as ∧ R as := by
  constructor
  · rintro ⟨m, hm, -, as, has, hR⟩
    refine ⟨as, ?_, hR⟩
    clear hR
    induction h generalizing as with
    | nil =>
      cases has
      exact .nil
    | cons hx _ ih =>
      cases has with
      | cons ha has => exact .cons ((hx.rel m hm _ ha.2).1 ha.1) (ih _ has)
  · rintro ⟨as, has, hR⟩
    obtain ⟨k, hk⟩ := exists_room as
    have hvalues : ∀ m ≥ n, (∀ a ∈ as, a < 2 ^ m) →
        List.Forall₂ (fun (x : Operand) a => x.rel m a ∧ a < 2 ^ m) xs as := by
      intro m hm hroom
      clear hR hk
      induction h generalizing as with
      | nil =>
        cases has
        exact .nil
      | cons hx _ ih =>
        cases has with
        | cons ho has =>
          rw [List.forall_mem_cons] at hroom
          exact .cons ⟨(hx.rel m hm _ hroom.1).2 ho, hroom.1⟩ (ih _ has hroom.2)
    by_cases ht : xs.any (·.temporary) = false
    · refine ⟨n, le_rfl, fun _ => rfl, as, hvalues n le_rfl ?_, hR⟩
      clear hvalues hR hk
      induction h generalizing as with
      | nil =>
        cases has
        simp
      | cons hx _ ih =>
        rw [List.any_cons, Bool.or_eq_false_iff] at ht
        cases has with
        | cons ho has =>
          rw [List.forall_mem_cons]
          exact ⟨hx.room ht.1 _ ho, ih _ has ht.2⟩
    · refine ⟨max n k, le_max_left n k, fun h => absurd h ht, as,
        hvalues _ (le_max_left n k) ?_, hR⟩
      exact fun a ha => Nat.lt_of_lt_of_le (hk a ha)
        (Nat.pow_le_pow_right (by decide) (le_max_right n k))

theorem joined_pair (hx : x.Is n o) (hy : y.Is n p) (R : List Nat → Prop) :
    Joined [x, y] (fun _ => R) n ↔ ∃ a b, o = some a ∧ p = some b ∧ R [a, b] := by
  rw [joined_iff (.cons hx (.cons hy .nil))]
  constructor
  · rintro ⟨as, has, hR⟩
    obtain _ | ⟨ha, _ | ⟨hb, _ | _⟩⟩ := has
    exact ⟨_, _, ha, hb, hR⟩
  · rintro ⟨a, b, ha, hb, hR⟩
    exact ⟨_, .cons ha (.cons hb .nil), hR⟩

private theorem mul_eq_half (m a b : Nat) :
    a + (m % 2) * b + m / 2 * (2 * b) = a + m * b := by
  calc a + (m % 2) * b + m / 2 * (2 * b) = a + (m % 2 + m / 2 * 2) * b := by
        rw [Nat.add_mul, Nat.mul_assoc, Nat.add_assoc]
    _ = a + m * b := by rw [Nat.mul_comm (m / 2), Nat.mod_add_div]

section

variable (hI : I.Follows Γ) (hΓ : Γ.Count)

include hI

theorem related_iff (hx : x.Is n o) (hy : y.Is n p) (name : String) :
    Related I name x y n ↔ ∃ a b, o = some a ∧ p = some b ∧ Γ name [a, b] := by
  have hholds : I.holds name = fun _ => Γ name := funext (hI.holds name)
  rw [Related, hholds]
  exact joined_pair hx hy (Γ name)

include hΓ

theorem is_sum (hx : x.Is n o) (hy : y.Is n p) :
    (sum I x y).Is n (do Operation.add.result? (← o) (← p)) where
  rel m hm c _ := by
    have hadder : ∀ k vs, I.holds "adder" k (vs ++ [c]) = IsSum (vs ++ [c]) := fun k vs => by
      rw [hI.holds, hΓ.adder]
    simp only [sum, hadder]
    rw [joined_pair (hx.mono hm) (hy.mono hm) fun vs => IsSum (vs ++ [c])]
    cases o <;> cases p <;> simp [IsSum, Operation.result?]
  room ht := nomatch ht

theorem is_difference (hx : x.Is n o) (hy : y.Is n p) :
    (difference I x y).Is n (do Operation.sub.result? (← o) (← p)) where
  rel m hm c _ := by
    simp only [difference, hI.holds, hΓ.adder]
    rw [joined_pair (hx.mono hm) (hy.mono hm) fun vs => ∃ a b, vs = [a, b] ∧ IsSum [b, c, a]]
    cases o <;> cases p <;> simp [IsSum, Operation.result?]
    omega
  room ht := nomatch ht

theorem is_double (hx : x.Is n o) : (double I x).Is n (o.map (2 * ·)) where
  rel m hm c _ := by
    have hadder : ∀ k vs, I.holds "adder" k (vs ++ vs ++ [c]) = IsSum (vs ++ vs ++ [c]) :=
      fun k vs => by rw [hI.holds, hΓ.adder]
    simp only [double, hadder]
    rw [joined_iff (.cons (hx.mono hm) .nil) fun vs => IsSum (vs ++ vs ++ [c])]
    constructor
    · rintro ⟨as, has, hsum⟩
      obtain _ | ⟨rfl, _ | _⟩ := has
      simpa [IsSum, Nat.two_mul] using hsum
    · intro h
      obtain ⟨a, rfl, rfl⟩ := Option.map_eq_some_iff.1 h
      exact ⟨[a], .cons rfl .nil, by simp [IsSum, Nat.two_mul]⟩
  room ht := nomatch ht

omit hI hΓ in
theorem is_calculated (R : Nat → Nat → Nat → Prop) (f : Nat → Nat → Option Nat)
    (hf : ∀ a b c, R a b c ↔ f a b = some c) (hx : x.Is n o) (hy : y.Is n p) :
    (calculated R x y).Is n (do f (← o) (← p)) where
  rel m hm c _ := by
    simp only [calculated, hf]
    rw [joined_pair (hx.mono hm) (hy.mono hm) fun vs => ∃ a b, vs = [a, b] ∧ f a b = some c]
    cases o <;> cases p <;> simp
  room ht := nomatch ht

section

variable {S : Set Nat}

omit hI hΓ in
theorem is_madeZero (hD : D.Comprises S) (ho : ∀ a, o = some a ↔ IsConstant S 0 a) :
    (madeZero D).Is n o where
  rel m _ a ha := by
    rw [ho, IsConstant.zero_iff]
    simp only [madeZero, hD.contains m a ha]
    exact ⟨fun h => ⟨h.1 ▸ h.2, h.1⟩, fun h => ⟨h.2, h.2 ▸ h.1⟩⟩
  room ht := nomatch ht

/-- The smallest number that is not zero. Where zero is not in the domain, nothing is equal to
it. -/
theorem is_madeOne (hD : D.Comprises S) (ho : ∀ a, o = some a ↔ IsConstant S 1 a) :
    (madeOne I D).Is n o where
  rel m hm a ha := by
    obtain ⟨z, hz⟩ := IsConstant.exists_option S 0
    have hzero : ∀ k, (zero D).Is k z := fun k => by
      rw [zero, hD.known]
      exact is_madeZero hD hz
    have hpositive : ∀ k b, b < 2 ^ k → b ∈ S →
        (¬Related I "equal" (known b) (zero D) k ↔ b ≠ 0) := by
      intro k b hb hbS
      rw [related_iff hI (is_known hb) (hzero k), hΓ.equal, not_iff_not]
      simp only [Option.some_inj, hz, IsConstant.zero_iff, AreEqual]
      constructor
      · rintro ⟨b', c, rfl, ⟨-, rfl⟩, rfl⟩
        rfl
      · rintro rfl
        exact ⟨0, 0, rfl, ⟨hbS, rfl⟩, rfl⟩
    have hless : ∀ k b, b < 2 ^ k → m ≤ k →
        (Related I "less" (known b) (known a) k ↔ b < a) := by
      intro k b hb hk
      rw [related_iff hI (is_known hb) ((is_known ha).mono hk), hΓ.less]
      simp [IsLess]
    rw [ho, IsConstant.one_iff]
    simp only [madeOne, hD.contains m a ha]
    constructor
    · rintro ⟨haS, hne, hsmallest⟩
      rw [hpositive m a ha haS] at hne
      refine ⟨⟨haS, hne⟩, fun b hb => ?_⟩
      by_contra hlt
      have hb' : b < 2 ^ m := Nat.lt_trans (Nat.not_le.1 hlt) ha
      exact hsmallest ⟨m, le_rfl, b, hb', (hD.contains m b hb').2 hb.1,
        (hpositive m b hb' hb.1).2 hb.2, (hless m b hb' le_rfl).2 (Nat.not_le.1 hlt)⟩
    · rintro ⟨⟨haS, hne⟩, hleast⟩
      refine ⟨haS, (hpositive m a ha haS).2 hne, ?_⟩
      rintro ⟨k, hk, b, hb, hbD, hbne, hlt⟩
      have hbS := (hD.contains k b hb).1 hbD
      exact absurd (hleast ⟨hbS, (hpositive k b hb hbS).1 hbne⟩)
        (Nat.not_le.2 ((hless k b hb hk).1 hlt))
  room ht := nomatch ht

theorem is_constant_of_comprises (hD : D.Comprises S) (k : Nat) {o : Option Nat}
    (ho : ∀ a, o = some a ↔ IsConstant S k a) : (constant I D k).Is n o := by
  induction k using Nat.strong_induction_on generalizing o with
  | _ k ih =>
    rw [constant, hD.known, Option.getD_none]
    split
    · subst k
      exact is_madeZero hD ho
    · split
      · subst k
        exact is_madeOne hI hΓ hD ho
      · split
        · rename_i hone hpower
          have heven : 2 * (k / 2) = k := by
            have hlog : k.log2 ≠ 0 := fun hlog => by
              rw [hlog] at hpower
              exact absurd hpower hone
            have hdvd : 2 ∣ k := by
              rw [hpower]
              exact dvd_pow_self 2 hlog
            exact Nat.mul_div_cancel' hdvd
          obtain ⟨p, hp⟩ := IsConstant.exists_option S (k / 2)
          have hsame : o = p.map (2 * ·) :=
            IsConstant.eq_map_double hp (by omega) fun a => by rw [heven, ho]
          rw [hsame]
          exact is_double hI hΓ (ih (k / 2) (by omega) hp)
        · rename_i hzero _ hpower
          have hpos : 0 < Nat.pow 2 k.log2 := Nat.two_pow_pos _
          have hlt : Nat.pow 2 k.log2 < k :=
            Nat.lt_of_le_of_ne (Nat.log2_self_le hzero) (Ne.symm hpower)
          have hparts := Nat.add_sub_cancel' hlt.le
          obtain ⟨p, hp⟩ := IsConstant.exists_option S (Nat.pow 2 k.log2)
          obtain ⟨q, hq⟩ := IsConstant.exists_option S (k - Nat.pow 2 k.log2)
          have hsame : o = (do Operation.add.result? (← p) (← q)) :=
            IsConstant.eq_result_add hp hq hpos.ne' (by omega) fun a => by rw [hparts, ho]
          rw [hsame]
          exact is_sum hI hΓ (ih _ hlt hp) (ih _ (by omega) hq)

end

theorem is_constant (hD : D.IsOpen) (k : Nat) : (constant I D k).Is n (some k) :=
  is_constant_of_comprises hI hΓ hD.comprises k fun a => by
    rw [IsConstant.univ_iff, Option.some_inj, eq_comm]

private theorem is_multiple_some {m : Nat} (hm : 0 < m) {a : Operand} {c : Option Nat}
    (ha : a.Is n c) (hx : x.Is n o) :
    (multiple I (some a) x m).Is n (do Operation.add.result? (← c) (← o.map (m * ·))) := by
  induction m using Nat.strong_induction_on generalizing a c x o with
  | _ m ih =>
    have hadded := is_sum hI hΓ ha hx
    rw [multiple.eq_def]
    dsimp only
    split
    · obtain rfl : m = 1 := by omega
      simpa using hadded
    · have hdouble := is_double hI hΓ hx
      have hhalf : ∀ b e : Nat, b + (m % 2) * e + m / 2 * (2 * e) = b + m * e := mul_eq_half m
      split
      · rename_i hodd
        have hnext := ih (m / 2) (by omega) (by omega) hadded hdouble
        rw [hodd] at hhalf
        cases c <;> cases o <;> simpa [Operation.result?, ← hhalf] using hnext
      · have hnext := ih (m / 2) (by omega) (by omega) ha hdouble
        rw [show m % 2 = 0 by omega] at hhalf
        cases c <;> cases o <;> simpa [Operation.result?, ← hhalf] using hnext

private theorem is_multiple_none {m : Nat} (hm : 0 < m) (hx : x.Is n o) :
    (multiple I none x m).Is n (o.map (m * ·)) := by
  induction m using Nat.strong_induction_on generalizing x o with
  | _ m ih =>
    rw [multiple.eq_def]
    dsimp only
    split
    · obtain rfl : m = 1 := by omega
      simpa using hx
    · have hdouble := is_double hI hΓ hx
      have hhalf : ∀ e : Nat, 0 + (m % 2) * e + m / 2 * (2 * e) = 0 + m * e := mul_eq_half m 0
      split
      · rename_i hodd
        have hnext := is_multiple_some hI hΓ (m := m / 2) (by omega) hx hdouble
        rw [hodd] at hhalf
        simp only [Nat.zero_add, Nat.one_mul] at hhalf
        cases o <;> simpa [Operation.result?, ← hhalf] using hnext
      · have hnext := ih (m / 2) (by omega) (by omega) hdouble
        rw [show m % 2 = 0 by omega] at hhalf
        simp only [Nat.zero_add, Nat.zero_mul] at hhalf
        cases o <;> simpa [← hhalf] using hnext

theorem is_scaled (hD : D.IsOpen) (hx : x.Is n o) (k : Nat) :
    (scaled I D k x).Is n (if k = 0 then some 0 else o.map (k * ·)) := by
  rw [scaled]
  split
  · exact is_constant hI hΓ hD 0
  · exact is_multiple_none hI hΓ (Nat.pos_of_ne_zero ‹_›) hx

section

variable (hD : D.IsOpen) {op : Operation} {value left right r : Option Nat}

include hI hΓ hD

private theorem is_product (hx : x.Is n o) (hy : y.Is n p) (hleft : ∀ k ∈ left, o = some k)
    (hright : ∀ k ∈ right, p = some k) :
    (arith I D .mul none left right x y).Is n
      (if left = some 0 ∨ right = some 0 then some 0
        else do Operation.mul.result? (← o) (← p)) := by
  cases left with
  | some k =>
    obtain rfl := hleft k rfl
    have hscaled := is_scaled hI hΓ hD hy k
    by_cases hk : k = 0
    · subst k
      simpa [arith] using hscaled
    · by_cases hzero : right = some 0
      · obtain rfl := hright 0 hzero
        simpa [arith, hk, hzero] using hscaled
      · cases p <;> simpa [arith, hk, hzero, Operation.result?] using hscaled
  | none =>
    cases right with
    | some k =>
      obtain rfl := hright k rfl
      have hscaled := is_scaled hI hΓ hD hx k
      by_cases hk : k = 0
      · subst k
        simpa [arith] using hscaled
      · cases o <;> simpa [arith, hk, Operation.result?, Nat.mul_comm] using hscaled
    | none =>
      have hcalculated := is_calculated (fun a b c => a * b = c) (fun a b => some (a * b))
        (fun a b c => (Option.some_inj (a := a * b) (b := c)).symm) hx hy
      simpa [arith, Operation.result?] using hcalculated

theorem is_arith (hx : x.Is n o) (hy : y.Is n p) (hleft : ∀ k ∈ left, o = some k)
    (hright : ∀ k ∈ right, p = some k)
    (hr : r = if op = .mul ∧ (left = some 0 ∨ right = some 0) then some 0
      else do op.result? (← o) (← p))
    (hvalue : ∀ k ∈ value, r = some k) : (arith I D op value left right x y).Is n r := by
  cases value with
  | some k =>
    rw [hvalue k rfl]
    exact is_constant hI hΓ hD k
  | none =>
    subst hr
    cases op with
    | add => simpa [arith] using is_sum hI hΓ hx hy
    | sub => simpa [arith] using is_difference hI hΓ hx hy
    | mul => simpa using is_product hI hΓ hD hx hy hleft hright
    | div =>
      have hquotient : ∀ a b c : Nat, (b ≠ 0 ∧ c * b = a) ↔ Operation.div.result? a b = some c := by
        intro a b c
        simp only [Operation.result?, Option.ite_none_right_eq_some, Option.some_inj]
        constructor
        · rintro ⟨hb, rfl⟩
          exact ⟨⟨hb, Nat.mul_mod_left c b⟩, Nat.mul_div_cancel c (Nat.pos_of_ne_zero hb)⟩
        · rintro ⟨⟨hb, hmod⟩, rfl⟩
          exact ⟨hb, Nat.div_mul_cancel (Nat.dvd_of_mod_eq_zero hmod)⟩
      simpa [arith] using is_calculated _ _ hquotient hx hy

end

end

end Operand

end RegularArithmetic
