import RegularArithmetic.Proofs.Automaton.Padding
import RegularArithmetic.Proofs.Program.Joining

/-!
Automata as relations between the numbers of some propositions and a result. All-false letters at
the end of an accepted word may be needed to make room for other numbers, and have to be accepted
too; with that, what is related does not depend on the words in which the numbers are written.
-/

set_option autoImplicit false

namespace RegularArithmetic

/-- Words of one length have letters that agree where their numbers do. -/
theorem forall₂_agree_of_numbers {V : Set Nat} {u u' : Word} (hlength : u'.length = u.length)
    (h : ∀ p ∈ V, numbers u' p = numbers u p) :
    List.Forall₂ (fun l l' => ∀ p ∈ V, l p = l' p) u' u := by
  induction u generalizing u' with
  | nil =>
    obtain rfl := List.length_eq_zero_iff.1 hlength
    exact .nil
  | cons l u ih =>
    cases u' with
    | nil => cases hlength
    | cons l' u' =>
      have hdigit : ∀ p ∈ V, l' p = l p ∧ numbers u' p = numbers u p := by
        intro p hp
        have hnumbers := h p hp
        simp only [numbers] at hnumbers
        revert hnumbers
        cases l' p <;> cases l p <;> simp <;> omega
      exact .cons (fun p hp => (hdigit p hp).1)
        (ih (Nat.succ.inj hlength) fun p hp => (hdigit p hp).2)

theorem Completes.append_padding {T : List Nat} {u u' : Word} (h : Completes T u u') (k : Nat) :
    Completes T (u ++ Automaton.padding k) (u' ++ Automaton.padding k) := by
  obtain ⟨hle, hnil, hoff⟩ := h
  refine ⟨?_, fun hT => ?_, fun p hp => ?_⟩
  · simpa using hle
  · simpa using hnil hT
  · simpa only [numbers_append_padding] using hoff p hp

namespace Automaton

variable {s : Diagram.Store} {a b c : Automaton} {V : Set Nat} {p q t : Nat} {L : Word → Prop}
  {M : (Nat → Nat) → Nat → Prop} {σ : Nat → Nat} {m n : Nat}

theorem Recognizes.accepts_congr (h : a.Recognizes s V L) {u u' : Word}
    (hlength : u'.length = u.length) (hnumbers : ∀ p ∈ V, numbers u' p = numbers u p) :
    a.Accepts s u' ↔ a.Accepts s u :=
  acceptsFrom_congr h.reads.labels (forall₂_agree_of_numbers hlength hnumbers)

/-- Some word is accepted in which the propositions in `V` have the numbers that `σ` gives them, and
`p` has the number `m`. -/
def Relates (s : Diagram.Store) (a : Automaton) (V : Set Nat) (p : Nat) (σ : Nat → Nat)
    (m : Nat) : Prop :=
  ∃ u, a.Accepts s u ∧ (∀ q ∈ V, numbers u q = σ q) ∧ numbers u p = m

/-- The automaton reads nothing but `V` and `p`, accepts padded words with the words that are
padded, and relates the numbers of `V` to those for `p` that `M` tells. -/
structure Carries (s : Diagram.Store) (a : Automaton) (V : Set Nat) (p : Nat)
    (M : (Nat → Nat) → Nat → Prop) : Prop where
  recognizes : a.Recognizes s (insert p V) (a.Accepts s)
  padded : ∀ u, a.Accepts s u → a.Accepts s (u ++ [blankLetter])
  relates : ∀ σ m, a.Relates s V p σ m ↔ M σ m

def times (n : Nat) (M : (Nat → Nat) → Nat → Prop) (σ : Nat → Nat) (m : Nat) : Prop :=
  ∃ k, M σ k ∧ m = n * k

theorem times_one : times 1 M = M := by
  funext σ m
  simp [times]

namespace Carries

theorem accepts_append_padding (h : a.Carries s V p M) {u : Word} (hu : a.Accepts s u) (k : Nat) :
    a.Accepts s (u ++ padding k) := by
  induction k with
  | zero => rwa [padding, List.replicate_zero, List.append_nil]
  | succ k ih =>
    rw [padding, List.replicate_succ', ← List.append_assoc]
    exact h.padded _ ih

theorem exists_length (h : a.Carries s V p M) (hm : M σ m) :
    ∃ n, ∀ u : Word, n ≤ u.length → (∀ q ∈ V, numbers u q = σ q) → numbers u p = m →
      a.Accepts s u := by
  obtain ⟨v, hv, hσ, hp⟩ := (h.relates σ m).2 hm
  refine ⟨v.length, fun u hlength hu hup => ?_⟩
  have hpadded := h.accepts_append_padding hv (u.length - v.length)
  refine (h.recognizes.accepts_congr ?_ fun q hq => ?_).1 hpadded
  · simp only [List.length_append, length_padding]
    omega
  · rw [numbers_append_padding]
    rcases hq with rfl | hq
    · rw [hp, hup]
    · rw [hσ q hq, hu q hq]

theorem of_accepts (h : a.Carries s V p M) {u : Word} (hu : a.Accepts s u)
    (hσ : ∀ q ∈ V, numbers u q = σ q) : M σ (numbers u p) :=
  (h.relates σ _).1 ⟨u, hu, hσ, rfl⟩

theorem mono_store {t : Diagram.Store} (h : a.Carries s V p M) (hs : s.Sound) (hst : s ≤ t) :
    a.Carries t V p M := by
  have haccepts : ∀ u, a.Accepts t u ↔ a.Accepts s u := fun u =>
    acceptsFrom_mono hs hst h.recognizes.formed
  refine ⟨((h.recognizes.mono_store hs hst).congr fun u => (haccepts u).symm), fun u hu => ?_,
    fun σ m => ?_⟩
  · exact (haccepts _).2 (h.padded u ((haccepts u).1 hu))
  · rw [← h.relates]
    exact exists_congr fun u => and_congr_left' (haccepts u)

/-- A sum of two multiples of what `M` tells, where the operands are quantified. One proposition for
both is no harm if they are the same multiple. -/
theorem sum (hM : ∀ σ k k', M σ k → M σ k' → k = k') {n n' : Nat}
    (ha : a.Carries s V p (times n M)) (hb : b.Carries s V q (times n' M)) (hp : p ∉ V)
    (hq : q ∉ V) (ht : t ∉ V) (htp : t ≠ p) (htq : t ≠ q) (hpq : p = q → n = n')
    (hc : c.Recognizes s (insert t V) fun u => ∃ u', RegularArithmetic.Completes [p, q] u u' ∧
      numbers u' p + numbers u' q = numbers u' t ∧ a.Accepts s u' ∧ b.Accepts s u') :
    c.Carries s V t (times (n + n') M) where
  recognizes := hc.accepting
  padded u hu := by
    obtain ⟨u', hu', hsum, hau, hbu⟩ := (hc.accepts u).1 hu
    refine (hc.accepts _).2 ⟨u' ++ [blankLetter], hu'.append_padding 1, ?_, ha.padded u' hau,
      hb.padded u' hbu⟩
    have hnumbers : numbers (u' ++ [blankLetter]) = numbers u' :=
      funext fun r => numbers_append_padding u' 1 r
    rwa [hnumbers]
  relates σ m := by
    have hoff : ∀ r ∈ insert t V, r ∉ [p, q] := by
      rintro r hr hmem
      rcases List.mem_pair.1 hmem with rfl | rfl
      · exact hr.elim htp.symm hp
      · exact hr.elim htq.symm hq
    constructor
    · rintro ⟨u, hu, hσ, rfl⟩
      obtain ⟨u', ⟨-, -, hkeep⟩, hsum, hau, hbu⟩ := (hc.accepts u).1 hu
      have hσ' : ∀ r ∈ V, numbers u' r = σ r := fun r hr => by
        rw [hkeep r (hoff r (.inr hr)), hσ r hr]
      obtain ⟨k, hk, hnk⟩ := ha.of_accepts hau hσ'
      obtain ⟨k', hk', hnk'⟩ := hb.of_accepts hbu hσ'
      obtain rfl := hM σ k k' hk hk'
      refine ⟨k, hk, ?_⟩
      rw [← hkeep t (hoff t (.inl rfl)), ← hsum, hnk, hnk', Nat.add_mul]
    · rintro ⟨k, hk, rfl⟩
      obtain ⟨N, hN⟩ := ha.exists_length ⟨k, hk, rfl⟩
      obtain ⟨N', hN'⟩ := hb.exists_length ⟨k, hk, rfl⟩
      obtain ⟨v, -, hv, -⟩ := (ha.relates σ _).2 ⟨k, hk, rfl⟩
      let τ : Nat → Nat := fun r =>
        if r = t then (n + n') * k
        else if r = p then n * k
        else if r = q then n' * k
        else numbers v r
      -- A word that is long enough for both automata and has room for the sum.
      have hroom : ∀ r, τ r < 2 ^ (N + N' + v.length + (n + n') * k) := by
        have hsum : (n + n') * k < 2 ^ (N + N' + v.length + (n + n') * k) :=
          Nat.lt_of_lt_of_le Nat.lt_two_pow_self
            (Nat.pow_le_pow_right (by decide) (Nat.le_add_left _ _))
        intro r
        have hv : numbers v r < 2 ^ (N + N' + v.length + (n + n') * k) :=
          Nat.lt_of_lt_of_le (numbers_lt v r) (Nat.pow_le_pow_right (by decide) (by omega))
        have hdistrib : (n + n') * k = n * k + n' * k := Nat.add_mul _ _ _
        dsimp only [τ]
        split_ifs <;> omega
      obtain ⟨u, hlength, hu⟩ := exists_word hroom
      have hut : numbers u t = (n + n') * k := by simp [hu, τ]
      have hup : numbers u p = n * k := by simp [hu, τ, htp.symm]
      have huq : numbers u q = n' * k := by
        by_cases h : q = p
        · rw [h, hup, hpq h.symm]
        · simp [hu, τ, htq.symm, h]
      have hσ : ∀ r ∈ V, numbers u r = σ r := by
        intro r hr
        have hmem := hoff r (.inr hr)
        simp only [List.mem_cons, List.not_mem_nil, or_false, not_or] at hmem
        have hrt : r ≠ t := fun h => ht (h ▸ hr)
        simp only [hu, τ, if_neg hrt, if_neg hmem.1, if_neg hmem.2, hv r hr]
      refine ⟨u, (hc.accepts u).2 ⟨u, ⟨le_rfl, fun _ => rfl, fun _ _ => rfl⟩, ?_,
        hN u (by omega) hσ hup, hN' u (by omega) hσ huq⟩, hσ, hut⟩
      rw [hup, huq, hut, Nat.add_mul]

end Carries

end Automaton

end RegularArithmetic
