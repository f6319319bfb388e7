import Mathlib.Data.Set.Finite.Basic
import Mathlib.Data.Fintype.EquivFin
import Mathlib.Logic.Relation
import Mathlib.Order.Interval.Set.Infinite
import RegularArithmetic.Proofs.Automaton.ZeroPadding

/-!
Acceptance of infinite words: some run is at accepting states infinitely often. On a word that goes
on with all-false letters forever this comes down to an accepting state on a cycle of the graph of
these letters, which can be reached when the letters before are over.
-/

set_option autoImplicit false

namespace RegularArithmetic

open Diagram (Assignment)

section

variable {R : Nat → Nat → Prop} {A : Nat → Prop} {n q : Nat}

/-- So many steps lead from `q` into the set. -/
def Arrives (R : Nat → Nat → Prop) (A : Nat → Prop) : Nat → Nat → Prop
  | 0, q => A q
  | k + 1, q => ∃ r, R q r ∧ Arrives R A k r

theorem exists_arrives_of_reflTransGen {p : Nat} (hp : A p) (h : Relation.ReflTransGen R q p) :
    ∃ k, Arrives R A k q := by
  induction h using Relation.ReflTransGen.head_induction_on with
  | refl => exact ⟨0, hp⟩
  | head hstep _ ih =>
    obtain ⟨k, hk⟩ := ih
    exact ⟨k + 1, _, hstep, hk⟩

/-- If every member of the set leads back into it, then whatever leads there does so again and
again. At each step the way to the set gets shorter, or ends there and begins anew. -/
theorem exists_recurrent (hback : ∀ p, A p → ∃ k, Arrives R A (k + 1) p)
    (hq : ∃ k, Arrives R A k q) :
    ∃ ρ : Nat → Nat, ρ 0 = q ∧ (∀ i, R (ρ i) (ρ (i + 1))) ∧ ∀ i, ∃ j ≥ i, A (ρ j) := by
  classical
  let Ahead (p : Nat) : Prop := ∃ k, Arrives R A (k + 1) p
  have hahead : ∀ {k p}, Arrives R A k p → Ahead p := by
    intro k p hp
    cases k with
    | zero => exact hback p hp
    | succ k => exact ⟨k, hp⟩
  have hnext : ∀ p, ∃ r, Ahead p → R p r ∧ Ahead r ∧
      ∀ k, Arrives R A (k + 1) p → A r ∨ ∃ k' < k, Arrives R A (k' + 1) r := by
    intro p
    by_cases hp : Ahead p
    swap
    · exact ⟨p, fun h => absurd h hp⟩
    obtain ⟨r, hr, hleft⟩ := Nat.find_spec hp
    refine ⟨r, fun _ => ⟨hr, hahead hleft, fun k hk => ?_⟩⟩
    have hle := Nat.find_min' hp hk
    cases hleast : Nat.find hp with
    | zero =>
      rw [hleast] at hleft
      exact Or.inl hleft
    | succ m =>
      rw [hleast] at hleft hle
      exact Or.inr ⟨m, hle, hleft⟩
  choose next hnext using hnext
  let ρ : Nat → Nat := fun i => next^[i] q
  have hsucc : ∀ i, ρ (i + 1) = next (ρ i) := fun i => Function.iterate_succ_apply' next i q
  have hrun : ∀ i, Ahead (ρ i) := by
    intro i
    induction i with
    | zero =>
      obtain ⟨k, hk⟩ := hq
      exact hahead hk
    | succ i ih =>
      rw [hsucc]
      exact (hnext _ ih).2.1
  have hrecurs : ∀ k i, Arrives R A (k + 1) (ρ i) → ∃ j ≥ i, A (ρ j) := by
    intro k
    induction k using Nat.strong_induction_on with
    | _ k ih =>
      intro i hk
      rcases (hnext _ (hrun i)).2.2 k hk with hA | ⟨k', hlt, hk'⟩
      · exact ⟨i + 1, by omega, hsucc i ▸ hA⟩
      · obtain ⟨j, hj, hA⟩ := ih k' hlt (i + 1) (hsucc i ▸ hk')
        exact ⟨j, by omega, hA⟩
  refine ⟨ρ, rfl, fun i => ?_, fun i => ?_⟩
  · rw [hsucc]
    exact (hnext _ (hrun i)).1
  · obtain ⟨k, hk⟩ := hrun i
    exact hrecurs k i hk

theorem transGen_of_run {ρ : Nat → Nat} (hρ : ∀ i, R (ρ i) (ρ (i + 1))) {i j : Nat} (hij : i < j) :
    Relation.TransGen R (ρ i) (ρ j) := by
  induction j, hij using Nat.le_induction with
  | base => exact .single (hρ i)
  | succ j _ ih => exact ih.tail (hρ j)

theorem exists_recurrent_iff (hR : ∀ p r, R p r → p < n) :
    (∃ ρ : Nat → Nat, ρ 0 = q ∧ (∀ i, R (ρ i) (ρ (i + 1))) ∧ ∀ i, ∃ j ≥ i, A (ρ j)) ↔
      ∃ p, (A p ∧ Relation.TransGen R p p) ∧ Relation.ReflTransGen R q p := by
  constructor
  · rintro ⟨ρ, rfl, hρ, hrecurs⟩
    have hinfinite : {j | A (ρ j)}.Infinite := Set.infinite_of_forall_exists_gt fun i => by
      obtain ⟨j, hj, hA⟩ := hrecurs (i + 1)
      exact ⟨j, hA, hj⟩
    have hmaps : Set.MapsTo ρ {j | A (ρ j)} (Set.Iio n) := fun j _ => hR _ _ (hρ j)
    obtain ⟨i, hi, j, -, hij, heq⟩ :=
      hinfinite.exists_lt_map_eq_of_mapsTo hmaps (Set.finite_Iio n)
    have hcycle := transGen_of_run hρ hij
    rw [← heq] at hcycle
    refine ⟨ρ i, ⟨hi, hcycle⟩, ?_⟩
    rcases Nat.eq_zero_or_pos i with rfl | hpos
    · exact .refl
    · exact (transGen_of_run hρ hpos).to_reflTransGen
  · rintro ⟨p, ⟨hp, hcycle⟩, hreach⟩
    -- The set is made smaller, to those of its members that are on a cycle.
    let A' (p : Nat) : Prop := A p ∧ Relation.TransGen R p p
    have hback : ∀ p, A' p → ∃ k, Arrives R A' (k + 1) p := by
      intro p hp
      obtain ⟨r, hr, hreturn⟩ := Relation.TransGen.head'_iff.1 hp.2
      obtain ⟨k, hk⟩ := exists_arrives_of_reflTransGen hp hreturn
      exact ⟨k, r, hr, hk⟩
    have hmember : A' p := ⟨hp, hcycle⟩
    obtain ⟨ρ, hfirst, hρ, hrecurs⟩ :=
      exists_recurrent hback (exists_arrives_of_reflTransGen hmember hreach)
    refine ⟨ρ, hfirst, hρ, fun i => ?_⟩
    obtain ⟨j, hj, hA, -⟩ := hrecurs i
    exact ⟨j, hj, hA⟩

end

structure Buchi where
  size : Nat
  start : Nat
  Accepting : Nat → Prop
  Step : Nat → Assignment → Nat → Prop

/-- The word, and after it all-false letters forever. -/
def Word.forever (w : Word) : Nat → Assignment := fun i => w.getD i Automaton.blankLetter

namespace Buchi

variable {B : Buchi} {q : Nat} {w : Nat → Assignment}

/-- A run from state `q` that is at accepting states infinitely often. -/
structure Run (B : Buchi) (q : Nat) (w : Nat → Assignment) (ρ : Nat → Nat) : Prop where
  first : ρ 0 = q
  lt : ∀ i, ρ i < B.size
  step : ∀ i, B.Step (ρ i) (w i) (ρ (i + 1))
  recurs : ∀ i, ∃ j ≥ i, B.Accepting (ρ j)

def AcceptsFrom (B : Buchi) (q : Nat) (w : Nat → Assignment) : Prop := ∃ ρ, B.Run q w ρ

/-- Some run from the start state is at accepting states infinitely often. -/
def Accepts (B : Buchi) (w : Nat → Assignment) : Prop := B.AcceptsFrom B.start w

theorem acceptsFrom_iff_exists_step : B.AcceptsFrom q w ↔
    ∃ r, (q < B.size ∧ B.Step q (w 0) r) ∧ B.AcceptsFrom r fun i => w (i + 1) := by
  constructor
  · rintro ⟨ρ, rfl, hlt, hstep, hrecurs⟩
    refine ⟨ρ 1, ⟨hlt 0, hstep 0⟩, fun i => ρ (i + 1), rfl, fun i => hlt (i + 1),
      fun i => hstep (i + 1), fun i => ?_⟩
    obtain ⟨j, hj, hA⟩ := hrecurs (i + 1)
    obtain ⟨k, rfl⟩ : ∃ k, j = k + 1 := ⟨j - 1, by omega⟩
    exact ⟨k, by omega, hA⟩
  · rintro ⟨r, ⟨hq, hr⟩, ρ, hfirst, hlt, hstep, hrecurs⟩
    let ρ' : Nat → Nat := Nat.rec q fun i _ => ρ i
    refine ⟨ρ', rfl, fun i => ?_, fun i => ?_, fun i => ?_⟩
    · cases i with
      | zero => exact hq
      | succ i => exact hlt i
    · cases i with
      | zero =>
        simp only [ρ', hfirst]
        exact hr
      | succ i => exact hstep i
    · obtain ⟨j, hj, hA⟩ := hrecurs i
      exact ⟨j + 1, by omega, hA⟩

theorem acceptsFrom_blank_iff (hB : ∀ p r, B.Step p Automaton.blankLetter r → p < B.size) :
    B.AcceptsFrom q (Word.forever []) ↔ ∃ p, (B.Accepting p ∧
      Relation.TransGen (B.Step · Automaton.blankLetter ·) p p) ∧
      Relation.ReflTransGen (B.Step · Automaton.blankLetter ·) q p := by
  rw [← exists_recurrent_iff hB]
  constructor
  · rintro ⟨ρ, hfirst, -, hstep, hrecurs⟩
    exact ⟨ρ, hfirst, hstep, hrecurs⟩
  · rintro ⟨ρ, hfirst, hstep, hrecurs⟩
    exact ⟨ρ, hfirst, fun i => hB _ _ (hstep i), hstep, hrecurs⟩

theorem accepts_congr {C : Buchi} {w' : Nat → Assignment} (hsize : B.size = C.size)
    (hstart : B.start = C.start) (haccepting : ∀ q, B.Accepting q ↔ C.Accepting q)
    (hstep : ∀ i q r, B.Step q (w i) r ↔ C.Step q (w' i) r) : B.Accepts w ↔ C.Accepts w' := by
  rw [Accepts, Accepts, AcceptsFrom, AcceptsFrom]
  refine exists_congr fun ρ => ?_
  constructor
  · rintro ⟨hfirst, hlt, hsteps, hrecurs⟩
    refine ⟨hfirst.trans hstart, fun i => hsize ▸ hlt i, fun i => (hstep _ _ _).1 (hsteps i), ?_⟩
    simpa only [← haccepting] using hrecurs
  · rintro ⟨hfirst, hlt, hsteps, hrecurs⟩
    refine ⟨hfirst.trans hstart.symm, fun i => hsize ▸ hlt i,
      fun i => (hstep _ _ _).2 (hsteps i), ?_⟩
    simpa only [haccepting] using hrecurs

theorem Accepts.of_map {C : Buchi} (f : Nat → Nat) (hstart : f B.start = C.start)
    (hlt : ∀ q < B.size, f q < C.size)
    (haccepting : ∀ q l r, B.Step q l r → B.Accepting q → C.Accepting (f q))
    (hstep : ∀ q l r, q < B.size → r < B.size → B.Step q l r → C.Step (f q) l (f r))
    (h : B.Accepts w) : C.Accepts w := by
  obtain ⟨ρ, hfirst, hρ, hsteps, hrecurs⟩ := h
  refine ⟨fun i => f (ρ i), hfirst ▸ hstart, fun i => hlt _ (hρ i),
    fun i => hstep _ _ _ (hρ i) (hρ (i + 1)) (hsteps i), fun i => ?_⟩
  obtain ⟨j, hj, hA⟩ := hrecurs i
  exact ⟨j, hj, haccepting _ _ _ (hsteps j) hA⟩

end Buchi

end RegularArithmetic
