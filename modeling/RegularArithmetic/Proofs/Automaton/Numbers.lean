import RegularArithmetic.Proofs.Automaton.Projection

/-!
The numbers that the propositions have in a word. A word is determined by its length and these
numbers, and quantifying propositions lets their numbers range freely, in words that may have to
be longer.
-/

set_option autoImplicit false

namespace RegularArithmetic

open Diagram (Assignment)

/-- The number whose digits a proposition has in the word, the lowest first. -/
def numbers : Word → Nat → Nat
  | [], _ => 0
  | l :: w, p => (l p).toNat + 2 * numbers w p

/-- The word of the given length in which the propositions have these numbers. -/
def wordOf : Nat → (Nat → Nat) → Word
  | 0, _ => []
  | n + 1, σ => (fun p => decide (σ p % 2 = 1)) :: wordOf n fun p => σ p / 2

theorem numbers_lt (w : Word) (p : Nat) : numbers w p < 2 ^ w.length := by
  induction w with
  | nil => simp [numbers]
  | cons l w ih =>
    rw [numbers, List.length_cons, pow_succ]
    cases l p <;> simp only [Bool.toNat_false, Bool.toNat_true] <;> omega

@[simp] theorem length_wordOf (n : Nat) (σ : Nat → Nat) : (wordOf n σ).length = n := by
  induction n generalizing σ with
  | zero => rfl
  | succ n ih => rw [wordOf, List.length_cons, ih]

theorem numbers_wordOf {n : Nat} {σ : Nat → Nat} {p : Nat} (h : σ p < 2 ^ n) :
    numbers (wordOf n σ) p = σ p := by
  induction n generalizing σ with
  | zero =>
    rw [pow_zero, Nat.lt_one_iff] at h
    rw [h]
    rfl
  | succ n ih =>
    rw [pow_succ] at h
    rw [wordOf, numbers, ih (σ := fun p => σ p / 2) (by omega)]
    by_cases hodd : σ p % 2 = 1
    · simp only [hodd, decide_true, Bool.toNat_true]
      omega
    · simp only [hodd, decide_false, Bool.toNat_false]
      omega

theorem exists_word {n : Nat} {σ : Nat → Nat} (h : ∀ p, σ p < 2 ^ n) :
    ∃ w : Word, w.length = n ∧ ∀ p, numbers w p = σ p :=
  ⟨wordOf n σ, length_wordOf n σ, fun p => numbers_wordOf (h p)⟩

theorem numbers_map (ρ : Nat → Nat) (w : Word) (p : Nat) :
    numbers (w.map (· ∘ ρ)) p = numbers w (ρ p) := by
  induction w with
  | nil => rfl
  | cons l w ih => rw [List.map_cons, numbers, numbers, ih, Function.comp]

theorem numbers_append_padding (w : Word) (k p : Nat) :
    numbers (w ++ Automaton.padding k) p = numbers w p := by
  induction w with
  | nil =>
    induction k with
    | zero => rfl
    | succ k ih =>
      simp only [List.nil_append] at ih
      rw [List.nil_append, Automaton.padding, List.replicate_succ, numbers]
      exact (congrArg (fun n => (Automaton.blankLetter p).toNat + 2 * n) ih).trans rfl
  | cons l w ih => rw [List.cons_append, numbers, numbers, ih]

namespace Automaton

/-- Words of one length agree where their numbers do. -/
theorem forall₂_agreeOff_iff {ps : List Nat} {w w' : Word} :
    List.Forall₂ (AgreeOff ps) w w' ↔
      w'.length = w.length ∧ ∀ p, p ∉ ps → numbers w' p = numbers w p := by
  induction w generalizing w' with
  | nil =>
    rw [List.forall₂_nil_left_iff, List.length_nil, List.length_eq_zero_iff]
    exact ⟨fun h => ⟨h, fun p _ => by rw [h]⟩, fun h => h.1⟩
  | cons l w ih =>
    cases w' with
    | nil => simp
    | cons l' w' =>
      rw [List.forall₂_cons, ih, List.length_cons, List.length_cons, Nat.add_right_cancel_iff]
      simp only [AgreeOff, numbers]
      constructor
      · rintro ⟨hl, hlength, hw⟩
        exact ⟨hlength, fun p hp => by rw [hl p hp, hw p hp]⟩
      · rintro ⟨hlength, h⟩
        have hdigit : ∀ p, p ∉ ps → l' p = l p ∧ numbers w' p = numbers w p := by
          intro p hp
          have := h p hp
          revert this
          cases l' p <;> cases l p <;> simp <;> omega
        exact ⟨fun p hp => (hdigit p hp).1, hlength, fun p hp => (hdigit p hp).2⟩

theorem projected_iff {L : Word → Prop} {ps : List Nat} {w : Word} :
    Projected L ps w ↔ ∃ w', w.length ≤ w'.length ∧
      (∀ p, p ∉ ps → numbers w' p = numbers w p) ∧ L w' := by
  simp only [Projected, forall₂_agreeOff_iff, numbers_append_padding, List.length_append,
    length_padding]
  constructor
  · rintro ⟨k, w', ⟨hlength, h⟩, hL⟩
    exact ⟨w', by omega, h, hL⟩
  · rintro ⟨w', hlength, h, hL⟩
    exact ⟨w'.length - w.length, w', ⟨by omega, h⟩, hL⟩

end Automaton

end RegularArithmetic
