import RegularArithmetic.Automaton.Boolean
import RegularArithmetic.Automaton.Projection
import RegularArithmetic.Binary
import RegularArithmetic.Proofs.Alphabet

/-!
What a state budget can change. A computation under a budget ends as it does under any higher one,
unless it ends with the error that the budget is exceeded.
-/

set_option autoImplicit false

namespace RegularArithmetic

/-- The second limit is no lower than the first one; no limit is higher than all. -/
def NoLower (limit limit' : Option Nat) : Prop := ∀ m ∈ limit', ∃ n ∈ limit, n ≤ m

/-- States with a budget, which can be replaced by another one. -/
class Budgeted (σ : Type) where
  within : σ → Option Nat → σ

open Budgeted (within)

/-- How computations of one value end under a budget and under a higher one: the lower one is
exceeded, or there is no difference. -/
inductive Ending {σ α : Type} [Budgeted σ] (limit limit' : Option Nat) :
    EStateM.Result Failure σ α → EStateM.Result Failure σ α → Prop
  | exceeded (n m : Nat) (t : σ) (e : EStateM.Result Failure σ α) :
    Ending limit limit' (.error (.error (.budgetExceeded n m)) t) e
  | ok (r : α) (t : σ) : Ending limit limit' (.ok r (within t limit)) (.ok r (within t limit'))
  | error (f : Failure) (t : σ) :
    Ending limit limit' (.error f (within t limit)) (.error f (within t limit'))

/-- Under a budget the computation exceeds it or ends as under any higher one. -/
def Frugal {σ α : Type} [Budgeted σ] (x : EStateM Failure σ α) : Prop :=
  ∀ (s : σ) (limit limit' : Option Nat), NoLower limit limit' →
    Ending limit limit' (x (within s limit)) (x (within s limit'))

namespace Frugal

variable {σ α β : Type} [Budgeted σ]

theorem pure (r : α) : Frugal (Pure.pure r : EStateM Failure σ α) := fun s _ _ _ => .ok r s

theorem throw (f : Failure) : Frugal (MonadExcept.throw f : EStateM Failure σ α) :=
  fun s _ _ _ => .error f s

theorem bind {x : EStateM Failure σ α} {g : α → EStateM Failure σ β} (hx : Frugal x)
    (hg : ∀ r, Frugal (g r)) : Frugal (x >>= g) := by
  intro s limit limit' hle
  have h := hx s limit limit' hle
  simp only [Bind.bind, EStateM.bind]
  revert h
  generalize x (within s limit) = e
  generalize x (within s limit') = e'
  rintro (⟨n, m, t, _⟩ | ⟨r, t⟩ | ⟨f, t⟩)
  · exact .exceeded n m t _
  · exact hg r t limit limit' hle
  · exact .error f t

theorem map {x : EStateM Failure σ α} (f : α → β) (hx : Frugal x) : Frugal (f <$> x) := by
  rw [map_eq_pure_bind]
  exact hx.bind fun r => .pure (f r)

theorem foldlM {g : β → α → EStateM Failure σ β} (hg : ∀ b r, Frugal (g b r)) (l : List α)
    (b : β) : Frugal (l.foldlM g b) := by
  induction l generalizing b with
  | nil => exact .pure b
  | cons r l ih =>
    rw [List.foldlM_cons]
    exact (hg b r).bind ih

theorem mapM {g : α → EStateM Failure σ β} (hg : ∀ r, Frugal (g r)) (l : List α) :
    Frugal (l.mapM g) := by
  induction l with
  | nil =>
    rw [List.mapM_nil]
    exact .pure []
  | cons r l ih =>
    rw [List.mapM_cons]
    exact (hg r).bind fun b => ih.bind fun bs => .pure (b :: bs)

theorem mapMArray {g : α → EStateM Failure σ β} (hg : ∀ r, Frugal (g r)) (xs : Array α) :
    Frugal (xs.mapM g) := by
  rw [Array.mapM_eq_mapM_toList]
  exact (mapM hg xs.toList).map _

theorem forM {g : α → EStateM Failure σ Unit} (hg : ∀ r, Frugal (g r)) (l : List α) :
    Frugal (l.forM g) := by
  induction l with
  | nil => exact .pure ()
  | cons r l ih => exact (hg r).bind fun _ => ih

theorem ite {c : Prop} [Decidable c] {x y : EStateM Failure σ α} (hx : Frugal x) (hy : Frugal y) :
    Frugal (if c then x else y) := by
  split
  · exact hx
  · exact hy

end Frugal

namespace Alphabet

/-- The alphabet with another budget. -/
def within (a : Alphabet) (limit : Option Nat) : Alphabet := { a with budget := limit }

instance : Budgeted Alphabet := ⟨within⟩

theorem unusedFrom_within (a : Alphabet) (limit : Option Nat) (hint : String) (n : Nat) :
    ∀ k, (a.within limit).unusedFrom hint k n = a.unusedFrom hint k n := by
  induction n with
  | zero => exact fun _ => rfl
  | succ n ih =>
    intro k
    rw [unusedFrom, unusedFrom, ih]
    rfl

end Alphabet

namespace Frugal

variable {α : Type}

theorem budget_eq {x : Alphabet.M α} (hx : Frugal x) {a b : Alphabet} {r : α}
    (hrun : x a = .ok r b) : b.budget = a.budget := by
  have h := hx a a.budget a.budget fun m hm => ⟨m, hm, le_rfl⟩
  have hself : within a a.budget = a := rfl
  rw [hself, hrun] at h
  generalize hend : (EStateM.Result.ok r b : EStateM.Result Failure Alphabet α) = e at h
  cases h with
  | exceeded n m t e => cases hend
  | ok r' t =>
    cases hend
    rfl
  | error f t => cases hend

/-- Diagrams are made without a budget. -/
theorem liftDiagram (x : Diagram.M α) : Frugal (liftM x : Alphabet.M α) := by
  rintro ⟨diagrams, names, literals, budget⟩ limit limit' -
  simp only [liftM, monadLift, MonadLift.monadLift, within, Alphabet.within]
  cases x diagrams with
  | ok r t => exact .ok r (⟨t, names, literals, budget⟩ : Alphabet)
  | error f t => exact .error (.fault f) (⟨t, names, literals, budget⟩ : Alphabet)

theorem liftFault (x : Except Fault α) : Frugal (liftM x : Alphabet.M α) := by
  cases x with
  | ok r => exact .pure r
  | error f => exact .throw (.fault f)

theorem fresh (hint : String) : Frugal (Alphabet.fresh hint) := by
  intro a limit limit' _
  simp only [within, fresh_eq, a.unusedFrom_within]
  exact .ok _ (⟨a.diagrams, a.names.push _, a.literals, a.budget⟩ : Alphabet)

theorem freshLiteral : Frugal Alphabet.freshLiteral := fun a _ _ _ =>
  .ok a.literals (⟨a.diagrams, a.names, a.literals + 1, a.budget⟩ : Alphabet)

theorem spend (n : Nat) : Frugal (Alphabet.spend n) := by
  have hspend : ∀ (a : Alphabet) (limit : Option Nat), (∀ m ∈ limit, ¬m < n) →
      Alphabet.spend n (within a limit) = .ok () (within a limit) := by
    intro a limit h
    cases limit with
    | none => rfl
    | some m =>
      simp only [Alphabet.spend, Alphabet.affords, within, Alphabet.within, if_neg (h m rfl)]
  intro a limit limit' hle
  by_cases h : ∃ m ∈ limit, m < n
  · obtain ⟨m, rfl, hm⟩ := h
    rw [show Alphabet.spend n (within a (some m)) =
        .error (.error (.budgetExceeded n m)) (within a (some m)) by
      simp only [Alphabet.spend, Alphabet.affords, within, Alphabet.within, if_pos hm]]
    exact .exceeded n m _ _
  · have hlow : ∀ m ∈ limit, ¬m < n := fun m hm hlt => h ⟨m, hm, hlt⟩
    have hhigh : ∀ m ∈ limit', ¬m < n := fun m hm hlt => by
      obtain ⟨k, hk, hkm⟩ := hle m hm
      exact hlow k hk (Nat.lt_of_le_of_lt hkm hlt)
    rw [hspend a limit hlow, hspend a limit' hhigh]
    exact .ok () a

/-- A fault under a budget is one without it. -/
theorem fault {x : Alphabet.M α} (hx : Frugal x) {a b : Alphabet} {f : Fault}
    (h : x a = .error (.fault f) b) : ∃ b, x (a.within none) = .error (.fault f) b := by
  have hending := hx a a.budget none fun m hm => nomatch hm
  rw [show within a a.budget = a from rfl, show within a none = a.within none from rfl, h]
    at hending
  generalize x (a.within none) = e at hending
  cases hending
  exact ⟨_, rfl⟩

end Frugal

namespace Exploration

variable {rule : Rule}

theorem frugal_meet (x : Exploration) (c : List Nat) : Frugal (meet rule x c) := by
  unfold meet
  cases x.numbers[c]? with
  | some q => exact .pure _
  | none => exact (Frugal.spend _).bind fun _ => (Frugal.liftFault _).bind fun _ => .pure _

theorem frugal_runFrom (left : Nat) : ∀ (q : Nat) (x : Exploration),
    Frugal (runFrom rule left q x) := by
  induction left with
  | zero => exact fun _ x => .pure x
  | succ left ih =>
    intro q x
    rw [runFrom]
    cases x.combinations[q]? with
    | none => exact .pure x
    | some c =>
      refine (Frugal.liftDiagram _).bind fun ms => Frugal.bind ?_ fun y => ih (q + 1) y
      exact Frugal.foldlM (fun y (d, label) => (frugal_meet y d).bind fun _ => .pure _) ms x

theorem frugal_run (c : List Nat) (bound : Nat) (props : NumberSet) :
    Frugal (run rule c bound props) :=
  (Frugal.liftFault _).bind fun _ => (frugal_runFrom bound 0 _).bind fun _ => .pure _

end Exploration

namespace Automaton

variable (a b : Automaton)

theorem frugal_determinize : Frugal a.determinize :=
  (Frugal.liftDiagram _).bind fun _ => .ite (.pure _) (Exploration.frugal_run _ _ _)

theorem frugal_finish : Frugal a.finish := a.frugal_determinize.bind fun _ => .liftDiagram _

theorem frugal_ofInfinite : Frugal a.ofInfinite := by
  refine (Frugal.liftDiagram _).bind fun next => ?_
  refine (Frugal.mapM (fun (st, q) => .ite (.liftFault _) (.pure _)) _).bind fun recurrent => ?_
  refine (Frugal.liftFault _).bind fun marks => ?_
  refine (frugal_finish _).bind fun b => ?_
  exact (Frugal.liftDiagram _).bind fun _ => .liftDiagram _

theorem frugal_product (accept : Bool → Bool → Bool) : Frugal (a.product b accept) :=
  (Exploration.frugal_run _ _ _).bind fun _ => .liftDiagram _

theorem frugal_intersect : Frugal (a.intersect b) := frugal_product a b _

theorem frugal_union : Frugal (a.union b) :=
  (Frugal.liftDiagram _).bind fun _ => (Frugal.liftDiagram _).bind fun _ => frugal_product _ _ _

theorem frugal_mapLabels (f : Diagram.Edge → Diagram.M Diagram.Edge) : Frugal (a.mapLabels f) :=
  (Frugal.mapMArray (fun _ => .liftDiagram _) _).bind fun _ => frugal_finish _

theorem frugal_project (ps : NumberSet) : Frugal (a.project ps) := by
  refine Frugal.ite (.pure _) ((frugal_mapLabels a _).bind fun _ => ?_)
  exact (Frugal.liftDiagram _).bind fun _ => (Frugal.liftDiagram _).bind fun _ => .pure _

end Automaton

namespace Binary

theorem frugal_add : Frugal add := by
  refine (Frugal.fresh _).bind fun a => (Frugal.fresh _).bind fun b => (Frugal.fresh _).bind
    fun c => (Frugal.liftFault _).bind fun m => (Frugal.liftDiagram _).bind fun m => ?_
  exact (Automaton.frugal_finish _).bind fun _ => .pure _

theorem frugal_equal : Frugal equal := by
  refine (Frugal.fresh _).bind fun a => (Frugal.fresh _).bind fun b => (Frugal.liftFault _).bind
    fun m => (Frugal.liftDiagram _).bind fun x => (Frugal.liftDiagram _).bind fun y => ?_
  refine (Frugal.liftDiagram _).bind fun same => (Frugal.liftDiagram _).bind fun m => ?_
  exact (Automaton.frugal_finish _).bind fun _ => .pure _

theorem frugal_less : Frugal less := by
  refine (Frugal.fresh _).bind fun a => (Frugal.fresh _).bind fun b => (Frugal.liftDiagram _).bind
    fun x => (Frugal.liftDiagram _).bind fun y => (Frugal.liftFault _).bind fun m => ?_
  refine (Frugal.liftDiagram _).bind fun same => (Frugal.liftDiagram _).bind fun below =>
    (Frugal.liftDiagram _).bind fun above => Frugal.bind ?_ fun m => ?_
  · refine Frugal.foldlM (fun m q => ?_) _ _
    exact (Frugal.liftDiagram _).bind fun _ => (Frugal.liftDiagram _).bind fun _ =>
      .liftDiagram _
  · exact (Automaton.frugal_finish _).bind fun _ => .pure _

theorem frugal_zero : Frugal zero :=
  (Frugal.fresh _).bind fun _ => (Frugal.liftFault _).bind fun _ => (Frugal.liftDiagram _).bind
    fun _ => (Frugal.liftDiagram _).bind fun _ => (Automaton.frugal_finish _).bind fun _ => .pure _

end Binary

end RegularArithmetic
