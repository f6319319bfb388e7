import Mathlib.Data.Nat.Digits.Lemmas
import RegularArithmetic.Proofs.Automaton.Canonical
import RegularArithmetic.Proofs.Automaton.Numbers

/-!
Automata for one number. What is still to be read of a positive number after some of its digits is
the number without these digits, so that a reduced automaton has a state for each digit and one for
the zeros behind them.
-/

set_option autoImplicit false

namespace RegularArithmetic

theorem numbers_append (u v : Word) (p : Nat) :
    numbers (u ++ v) p = numbers u p + 2 ^ u.length * numbers v p := by
  induction u with
  | nil => simp [numbers]
  | cons l u ih =>
    rw [List.cons_append, numbers, numbers, ih, List.length_cons, pow_succ', Nat.mul_assoc,
      Nat.mul_add, Nat.add_assoc]

namespace Automaton

variable {s : Diagram.Store} {a : Automaton} {p N q : Nat}

/-- The state accepts what is left of the number without its first `i` digits. -/
def Awaits (s : Diagram.Store) (a : Automaton) (p N q i : Nat) : Prop :=
  ∀ v, AcceptsFrom s a q v ↔ numbers v p = N / 2 ^ i

section

variable (hL : ∀ u, a.Accepts s u ↔ numbers u p = N)

include hL

theorem awaits_of_reaches (ha : a.Deterministic s) {u : Word} (hq : Reaches s a 0 u q)
    (hproductive : ∃ v, AcceptsFrom s a q v) : Awaits s a p N q u.length := by
  have haccepts : ∀ v, AcceptsFrom s a q v ↔ numbers u p + 2 ^ u.length * numbers v p = N := by
    intro v
    rw [← numbers_append, ← hL, Accepts, acceptsFrom_append]
    constructor
    · exact fun hv => ⟨q, hq, hv⟩
    · rintro ⟨r, hr, hv⟩
      exact ha.reaches_unique hr hq ▸ hv
  obtain ⟨v₀, hv₀⟩ := hproductive
  rw [haccepts] at hv₀
  have hlt := numbers_lt u p
  have hrest : ∀ m, numbers u p + 2 ^ u.length * m = N ↔ m = N / 2 ^ u.length := by
    intro m
    rw [← hv₀, Nat.add_mul_div_left _ _ (Nat.two_pow_pos _), Nat.div_eq_of_lt hlt, Nat.zero_add,
      Nat.add_left_cancel_iff, Nat.mul_right_inj (Nat.two_pow_pos _).ne']
  exact fun v => (haccepts v).trans (hrest _)

theorem exists_awaits (ha : a.Deterministic s) (i : Nat) :
    ∃ q < a.size, Awaits s a p N q i := by
  have hroom : ∀ _ : Nat, N < 2 ^ (N + i) := fun _ =>
    Nat.lt_two_pow_self.trans_le (Nat.pow_le_pow_right (by decide) (Nat.le_add_right N i))
  obtain ⟨u, hlength, hu⟩ := exists_word hroom
  have haccepts : a.Accepts s (u.take i ++ u.drop i) := by
    rw [List.take_append_drop]
    exact (hL u).2 (hu p)
  obtain ⟨q, hq, hrest⟩ := acceptsFrom_append.1 haccepts
  have hawaits := awaits_of_reaches hL ha hq ⟨_, hrest⟩
  rw [List.length_take_of_le (by omega)] at hawaits
  exact ⟨q, hrest.lt, hawaits⟩

end

theorem div_two_pow_lt {i j : Nat} (hij : i < j) (hi : 2 ^ i ≤ N) :
    N / 2 ^ j < N / 2 ^ i := by
  have hpos : 0 < N / 2 ^ i := Nat.div_pos hi (Nat.two_pow_pos i)
  calc N / 2 ^ j = N / 2 ^ i / 2 ^ (j - i) := by
        rw [Nat.div_div_eq_div_mul, ← pow_add, Nat.add_sub_cancel' hij.le]
    _ < N / 2 ^ i := Nat.div_lt_self hpos (Nat.one_lt_two_pow (Nat.sub_pos_of_lt hij).ne')

theorem Awaits.div_eq {i j : Nat} (hi : Awaits s a p N q i) (hj : Awaits s a p N q j) :
    N / 2 ^ i = N / 2 ^ j := by
  obtain ⟨v, -, hv⟩ := exists_word (σ := fun _ => N / 2 ^ i) fun _ => Nat.lt_two_pow_self
  exact (hv p).symm.trans ((hj v).1 ((hi v).2 (hv p)))

theorem Awaits.congr {i j : Nat} (hi : Awaits s a p N q i) (h : N / 2 ^ i = N / 2 ^ j) :
    Awaits s a p N q j := fun v => h ▸ hi v

theorem Separated.eq_of_awaits {r i : Nat} (h : a.Separated s) (hq : q < a.size) (hr : r < a.size)
    (hqi : Awaits s a p N q i) (hri : Awaits s a p N r i) : q = r :=
  h q r hq hr fun v => (hqi v).trans (hri v).symm

theorem Reduced.size_eq_digits (ha : a.Reduced s) (hN : N ≠ 0)
    (hL : ∀ u, a.Accepts s u ↔ numbers u p = N) : a.size = (Nat.digits 2 N).length + 1 := by
  obtain ⟨d, hd⟩ : ∃ d, d = (Nat.digits 2 N).length := ⟨_, rfl⟩
  have hfew : N < 2 ^ d := hd ▸ Nat.lt_base_pow_length_digits Nat.one_lt_two
  have hmany : ∀ i < d, 2 ^ i ≤ N := by
    intro i hi
    have hlength : 2 ^ d ≤ 2 * N := hd ▸ Nat.base_pow_length_digits_le 2 N Nat.one_lt_two hN
    have hstep : 2 * 2 ^ i ≤ 2 ^ d := by
      rw [← pow_succ']
      exact Nat.pow_le_pow_right (by decide) hi
    omega
  rw [← hd]
  choose f hf hawaits using fun i : Fin (d + 1) => exists_awaits hL ha.deterministic i.1
  -- The rests of the number differ as long as it has digits left.
  have hinjective : Function.Injective fun i => (⟨f i, hf i⟩ : Fin a.size) := by
    intro i j hij
    have hsame : f i = f j := Fin.ext_iff.1 hij
    have hrest : N / 2 ^ i.1 = N / 2 ^ j.1 := (hawaits i).div_eq (hsame ▸ hawaits j)
    rcases Nat.lt_trichotomy i j with hlt | heq | hgt
    · exact absurd hrest (div_two_pow_lt hlt (hmany i (by omega))).ne'
    · exact Fin.ext heq
    · exact absurd hrest (div_two_pow_lt hgt (hmany j (by omega))).ne
  -- Every state awaits some rest, which is zero once there are no digits left.
  have hsurjective : Function.Surjective fun i => (⟨f i, hf i⟩ : Fin a.size) := by
    rintro ⟨q, hq⟩
    have hproductive : ∀ q < a.size, ∃ v, AcceptsFrom s a q v := by
      refine (ha.trim.cases ha.formed.nonempty).resolve_right fun ⟨hempty, _⟩ => ?_
      obtain ⟨v, -, hv⟩ := exists_word (σ := fun _ => N) fun _ => Nat.lt_two_pow_self
      exact hempty v ((hL v).2 (hv p))
    obtain ⟨u, hu⟩ := ha.trim.reachable q hq
    have hq' : Awaits s a p N q u.length :=
      awaits_of_reaches hL ha.deterministic hu (hproductive q hq)
    obtain ⟨i, hi⟩ : ∃ i : Fin (d + 1), N / 2 ^ u.length = N / 2 ^ i.1 := by
      rcases Nat.lt_or_ge u.length d with hlt | hge
      · exact ⟨⟨u.length, by omega⟩, rfl⟩
      · refine ⟨Fin.last d, ?_⟩
        rw [Fin.val_last, Nat.div_eq_of_lt hfew,
          Nat.div_eq_of_lt (hfew.trans_le (Nat.pow_le_pow_right (by decide) hge))]
    exact ⟨i, Fin.ext (ha.separated.eq_of_awaits (hf i) hq (hawaits i) (hq'.congr hi))⟩
  have hcard := Fintype.card_of_bijective ⟨hinjective, hsurjective⟩
  rw [Fintype.card_fin, Fintype.card_fin] at hcard
  exact hcard.symm

end Automaton

end RegularArithmetic
