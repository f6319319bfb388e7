import Mathlib.Algebra.Group.Nat.Defs
import Mathlib.Data.Nat.Pairing
import Mathlib.Data.Set.Function
import Mathlib.Data.UInt
import RegularArithmetic.Store.Pairing

/-!
The pairing of words is the square-shell pairing of numbers, as far as that fits into a word. The
first `k` shells hold the numbers below `k ^ 2`, so nothing wraps for words below `2 ^ 32`, and
their pairs are all the words there are.
-/

set_option autoImplicit false

namespace RegularArithmetic.Store

theorem natPair_lt_sq_iff {m n k : Nat} : Nat.pair m n < k ^ 2 ↔ m < k ∧ n < k := by
  rw [← Nat.max_lt]
  constructor
  · intro h
    have hshell := Nat.max_sq_add_min_le_pair m n
    exact (Nat.pow_lt_pow_iff_left (n := 2) (by decide)).1 (by omega)
  · intro h
    calc Nat.pair m n < (max m n + 1) ^ 2 := Nat.pair_lt_max_add_one_sq m n
      _ ≤ k ^ 2 := Nat.pow_le_pow_left h 2

variable {a b : UInt64}

theorem toNat_pair_eq_mod (a b : UInt64) :
    (pair a b).toNat = Nat.pair a.toNat b.toNat % 2 ^ 64 := by
  simp only [pair, Nat.pair, UInt64.lt_iff_toNat_lt]
  split <;> simp

theorem toNat_lt_iff : a.toNat < 2 ^ 32 ↔ a < 2 ^ 32 := by
  rw [UInt64.lt_iff_toNat_lt]
  rfl

theorem natPair_lt_size (ha : a < 2 ^ 32) (hb : b < 2 ^ 32) :
    Nat.pair a.toNat b.toNat < 2 ^ 64 :=
  natPair_lt_sq_iff (k := 2 ^ 32) |>.2 ⟨toNat_lt_iff.2 ha, toNat_lt_iff.2 hb⟩

theorem toNat_pair (ha : a < 2 ^ 32) (hb : b < 2 ^ 32) :
    (pair a b).toNat = Nat.pair a.toNat b.toNat := by
  rw [toNat_pair_eq_mod, Nat.mod_eq_of_lt (natPair_lt_size ha hb)]

theorem natPair_lt_iff : Nat.pair a.toNat b.toNat < 2 ^ 32 ↔
    (a < 2 ^ 32 ∧ b < 2 ^ 32) ∧ pair a b < 2 ^ 32 := by
  constructor
  · intro h
    have hpair := natPair_lt_sq_iff.1 (h.trans (show 2 ^ 32 < (2 ^ 32) ^ 2 by decide))
    have hab : a < 2 ^ 32 ∧ b < 2 ^ 32 := hpair.imp toNat_lt_iff.1 toNat_lt_iff.1
    exact ⟨hab, toNat_lt_iff.1 (by rwa [toNat_pair hab.1 hab.2])⟩
  · rintro ⟨⟨ha, hb⟩, h⟩
    rw [← toNat_pair ha hb]
    exact toNat_lt_iff.2 h

theorem pair_inj {c d : UInt64} (hab : a < 2 ^ 32 ∧ b < 2 ^ 32) (hcd : c < 2 ^ 32 ∧ d < 2 ^ 32)
    (h : pair a b = pair c d) : a = c ∧ b = d := by
  have hnat : Nat.pair a.toNat b.toNat = Nat.pair c.toNat d.toNat := by
    rw [← toNat_pair hab.1 hab.2, ← toNat_pair hcd.1 hcd.2, h]
  exact (Nat.pair_eq_pair.1 hnat).imp UInt64.toNat_inj.1 UInt64.toNat_inj.1

theorem exists_pair_eq (n : UInt64) : ∃ a b : UInt64, (a < 2 ^ 32 ∧ b < 2 ^ 32) ∧ pair a b = n := by
  have hpair : Nat.pair n.toNat.unpair.1 n.toNat.unpair.2 = n.toNat := Nat.pair_unpair n.toNat
  have hsize : n.toNat < (2 ^ 32) ^ 2 := n.toNat_lt
  obtain ⟨h₁, h₂⟩ := natPair_lt_sq_iff.1 (hpair.trans_lt hsize)
  have hto : ∀ m < 2 ^ 32, (UInt64.ofNat m).toNat = m := fun m hm =>
    UInt64.toNat_ofNat_of_lt (by simp only [UInt64.size]; omega)
  have hlt : ∀ m < 2 ^ 32, UInt64.ofNat m < 2 ^ 32 := fun m hm =>
    toNat_lt_iff.1 (by rwa [hto m hm])
  refine ⟨_, _, ⟨hlt _ h₁, hlt _ h₂⟩, UInt64.toNat_inj.1 ?_⟩
  rw [toNat_pair (hlt _ h₁) (hlt _ h₂), hto _ h₁, hto _ h₂, hpair]

theorem pairThree_inj {c a' b' c' : UInt64}
    (h : Nat.pair a.toNat b.toNat < 2 ^ 32 ∧ c < 2 ^ 32)
    (h' : Nat.pair a'.toNat b'.toNat < 2 ^ 32 ∧ c' < 2 ^ 32)
    (heq : pairThree a b c = pairThree a' b' c') : a = a' ∧ b = b' ∧ c = c' := by
  obtain ⟨hinner, hlt⟩ := natPair_lt_iff.1 h.1
  obtain ⟨hinner', hlt'⟩ := natPair_lt_iff.1 h'.1
  obtain ⟨hpairs, hc⟩ := pair_inj ⟨hlt, h.2⟩ ⟨hlt', h'.2⟩ heq
  obtain ⟨ha, hb⟩ := pair_inj hinner hinner' hpairs
  exact ⟨ha, hb, hc⟩

/-- Words below `2 ^ 32` are paired without wrapping, no two pairs of them have one number, and
every word is the number of such a pair. So no two triples have one number as long as the number
of the first two words and the third word are below `2 ^ 32`. That number is meant as the exact
one: then the two words are below `2 ^ 32` themselves, and it is the one that is computed. -/
theorem pair_exact :
    (∀ a b : UInt64, a < 2 ^ 32 → b < 2 ^ 32 → Nat.pair a.toNat b.toNat < 2 ^ 64 ∧
      (pair a b).toNat = Nat.pair a.toNat b.toNat) ∧
    Set.BijOn (fun p : UInt64 × UInt64 => pair p.1 p.2) {p | p.1 < 2 ^ 32 ∧ p.2 < 2 ^ 32}
      Set.univ ∧
    (∀ a b : UInt64, Nat.pair a.toNat b.toNat < 2 ^ 32 ↔
      (a < 2 ^ 32 ∧ b < 2 ^ 32) ∧ pair a b < 2 ^ 32) ∧
    Set.InjOn (fun t : UInt64 × UInt64 × UInt64 => pairThree t.1 t.2.1 t.2.2)
      {t | Nat.pair t.1.toNat t.2.1.toNat < 2 ^ 32 ∧ t.2.2 < 2 ^ 32} := by
  refine ⟨fun a b ha hb => ⟨natPair_lt_size ha hb, toNat_pair ha hb⟩,
    ⟨Set.mapsTo_univ _ _, ?injective, ?surjective⟩, fun a b => natPair_lt_iff, ?three⟩
  case injective =>
    rintro ⟨a, b⟩ hab ⟨c, d⟩ hcd h
    exact Prod.ext_iff.2 (pair_inj hab hcd h)
  case surjective =>
    intro n _
    obtain ⟨a, b, hab, rfl⟩ := exists_pair_eq n
    exact ⟨(a, b), hab, rfl⟩
  case three =>
    rintro ⟨a, b, c⟩ h ⟨a', b', c'⟩ h' heq
    obtain ⟨rfl, rfl, rfl⟩ := pairThree_inj h h' heq
    rfl

/-- The last shell ends with the largest word. -/
theorem pair_exact_last : (4294967295 : UInt64) < 2 ^ 32 ∧
    (pair 4294967295 4294967295).toNat = Nat.pair 4294967295 4294967295 ∧
    Nat.pair 4294967295 4294967295 = 2 ^ 64 - 1 :=
  ⟨by decide, (pair_exact.1 4294967295 4294967295 (by decide) (by decide)).2, by decide⟩

end RegularArithmetic.Store
