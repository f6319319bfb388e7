import Mathlib.Algebra.Order.BigOperators.Group.List
import RegularArithmetic.Program.Evaluation
import RegularArithmetic.Proofs.Meaning.FreeVariables
import RegularArithmetic.Proofs.Meaning.Satisfaction
import RegularArithmetic.Proofs.Program.Description

/-!
What an automaton says of numbers, however many digits they have. Where the meaning of a formula
does not depend on the length of the word, the automaton accepts the words in which its variables
stand for numbers that satisfy the formula, and its verdict is one about all numbers.
-/

set_option autoImplicit false

namespace RegularArithmetic

open Program (findVar)

/-- `S` depends on finitely many variables, and `T` says in words with room for the numbers what
`S` says of them. -/
structure Reflects (T : Nat → Valuation → Prop) (S : Valuation → Prop) : Prop where
  support : ∃ V : List String, ∀ τ τ' : Valuation, (∀ v ∈ V, τ v = τ' v) → (S τ ↔ S τ')
  holds : ∀ n τ, (∀ v, τ v < 2 ^ n) → (T n τ ↔ S τ)

theorem reflects_satisfied {I : Interpretation} {Γ : Relations} {N : Set String} {x : Expr}
    {B : Bounds} (hI : I.Follows Γ) (hΓ : Γ.Count) (hx : x.IsPlain settledOpen N)
    (hB : ∀ v n τ, B v n τ) : Reflects (x.Holds I B) (x.Satisfied Γ) where
  support := ⟨x.freeVars, fun _ _ h => Expr.satisfied_congr h⟩
  holds _ _ hτ := Expr.holds_iff hI hΓ hx hB hτ

namespace Workspace

variable {K : Limits} {w : Workspace} {a : Automaton} {T : Nat → Valuation → Prop}
  {S : Valuation → Prop} {u : Word} {τ : Valuation}

/-- The numbers that the variables in scope have in a word, and zero for the others. -/
def valuationOf (w : Workspace) (u : Word) : Valuation := fun v =>
  match findVar v w.program.frames with
  | .bound p => numbers u p
  | _ => 0

theorem fits_valuationOf (w : Workspace) (K : Limits) (u : Word) :
    w.Fits K (w.valuationOf u) u := by
  intro v _ p hp
  rw [valuationOf, hp]

theorem valuationOf_lt (w : Workspace) (u : Word) (v : String) :
    w.valuationOf u v < 2 ^ u.length := by
  rw [valuationOf]
  split
  · exact numbers_lt u _
  · exact Nat.two_pow_pos _

theorem Fits.append_padding (h : w.Fits K τ u) (k : Nat) :
    w.Fits K τ (u ++ Automaton.padding k) := by
  intro v hv p hp
  rw [numbers_append_padding]
  exact h v hv p hp

/-- The automaton accepts a word if the numbers in it satisfy `S`. Padding the word makes room for
the numbers of the variables that are not in scope. -/
theorem Describes.accepts_iff (h : w.Describes K a T) (hTS : Reflects T S) (hfits : w.Fits K τ u) :
    a.Accepts w.alphabet.diagrams u ↔ S τ := by
  obtain ⟨L, hL, hT⟩ := h
  obtain ⟨V, hV⟩ := hTS.support
  obtain ⟨m, hm⟩ := Operand.exists_room (V.map τ)
  let σ : Valuation := fun v => if v ∈ V then τ v else w.valuationOf u v
  have hlength : (u ++ Automaton.padding m).length = u.length + m := by simp
  have hle : ∀ k ≤ u.length + m, 2 ^ k ≤ 2 ^ (u.length + m) := fun k hk =>
    Nat.pow_le_pow_right (by decide) hk
  have hwide : ∀ v, w.valuationOf u v < 2 ^ (u.length + m) := fun v =>
    Nat.lt_of_lt_of_le (w.valuationOf_lt u v) (hle _ (Nat.le_add_right _ _))
  have hσ : ∀ v, σ v < 2 ^ (u.length + m) := by
    intro v
    dsimp only [σ]
    split
    · exact Nat.lt_of_lt_of_le (hm _ (List.mem_map_of_mem ‹_›)) (hle _ (Nat.le_add_left _ _))
    · exact hwide v
  have hσfits : w.Fits K σ u := by
    intro v hv p hp
    dsimp only [σ]
    split
    · exact hfits v hv p hp
    · exact w.fits_valuationOf K u v hv p hp
  have hshort : L u ↔ S (w.valuationOf u) :=
    (hT u _ (w.fits_valuationOf K u)).trans (hTS.holds _ _ (w.valuationOf_lt u))
  have hpadded : ∀ {τ'}, w.Fits K τ' u → (∀ v, τ' v < 2 ^ (u.length + m)) →
      (L (u ++ Automaton.padding m) ↔ S τ') := by
    intro τ' hτ' hlt
    rw [hT _ _ (hτ'.append_padding m), hlength]
    exact hTS.holds _ _ hlt
  calc a.Accepts w.alphabet.diagrams u ↔ L u := hL.accepts u
    _ ↔ S (w.valuationOf u) := hshort
    _ ↔ L (u ++ Automaton.padding m) := (hpadded (w.fits_valuationOf K u) hwide).symm
    _ ↔ S σ := hpadded hσfits hσ
    _ ↔ S τ := hV σ τ fun v hv => if_pos hv

def Separate (w : Workspace) : Prop := ∀ u v p,
  findVar u w.program.frames = .bound p → findVar v w.program.frames = .bound p → u = v

theorem exists_fits (hw : w.Separate) {V : List String} {m : Nat} (hm : ∀ v ∈ V, τ v < 2 ^ m) :
    ∃ u τ', u.length = m ∧ w.Fits K τ' u ∧ ∀ v ∈ V, τ' v = τ v := by
  classical
  let τ' : Valuation := fun v => if v ∈ V then τ v else 0
  have hτ' : ∀ v, τ' v < 2 ^ m := by
    intro v
    dsimp only [τ']
    split
    · exact hm v ‹_›
    · exact Nat.two_pow_pos m
  let σ : Nat → Nat := fun p =>
    if h : ∃ v, findVar v w.program.frames = .bound p then τ' h.choose else 0
  have hσ : ∀ p, σ p < 2 ^ m := by
    intro p
    dsimp only [σ]
    split
    · exact hτ' _
    · exact Nat.two_pow_pos m
  obtain ⟨u, hlength, hu⟩ := exists_word hσ
  refine ⟨u, τ', hlength, fun v _ p hp => ?_, fun v hv => if_pos hv⟩
  have hbound : ∃ v, findVar v w.program.frames = .bound p := ⟨v, hp⟩
  rw [hu p]
  dsimp only [σ]
  rw [dif_pos hbound, hw _ _ _ hbound.choose_spec hp]

theorem Describes.yields_truth (hs : w.alphabet.diagrams.Sound) (hw : w.Separate)
    (h : w.Describes K a T) (hTS : Reflects T S) :
    Yields (liftM a.truth : Program.M Truth) w fun t _ => t.Says S := by
  have hword : ∀ τ, ∃ u, a.Accepts w.alphabet.diagrams u ↔ S τ := by
    intro τ
    obtain ⟨V, hV⟩ := hTS.support
    obtain ⟨m, hm⟩ := Operand.exists_room (V.map τ)
    have hroom : ∀ v ∈ V, τ v < 2 ^ m := fun v hv => hm _ (List.mem_map_of_mem hv)
    obtain ⟨u, τ', -, hfits, hτ'⟩ := exists_fits (K := K) hw hroom
    exact ⟨u, (h.accepts_iff hTS hfits).trans (hV τ' τ hτ')⟩
  have hnumbers : ∀ u, ∃ τ, a.Accepts w.alphabet.diagrams u ↔ S τ := fun u =>
    ⟨_, h.accepts_iff hTS (w.fits_valuationOf K u)⟩
  obtain ⟨L, hL, -⟩ := h
  refine (Program.yields_liftDiagram (Automaton.yields_truth hs hL.accepting)).mono ?_
  rintro t - - ⟨ht, -⟩
  cases t with
  | always =>
    intro τ
    obtain ⟨u, hu⟩ := hword τ
    exact hu.1 (ht u)
  | never =>
    intro τ
    obtain ⟨u, hu⟩ := hword τ
    exact fun hS => ht u (hu.2 hS)
  | sometimes =>
    obtain ⟨⟨u, hu⟩, u', hu'⟩ := ht
    obtain ⟨τ, hτ⟩ := hnumbers u
    obtain ⟨τ', hτ'⟩ := hnumbers u'
    exact ⟨⟨τ, hτ.1 hu⟩, τ', fun hS => hu' (hτ'.2 hS)⟩

end Workspace

end RegularArithmetic
