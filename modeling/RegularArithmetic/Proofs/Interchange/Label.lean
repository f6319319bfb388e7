import RegularArithmetic.Proofs.Diagram.Totality
import RegularArithmetic.Proofs.Interchange.Grammar

/-!
What a label says of a letter. The diagram that is made for it says the same, and it is always made
if the label was read over the propositions that its numbers stand for.
-/

set_option autoImplicit false

namespace RegularArithmetic

open Diagram (Edge Assignment)

namespace Label

/-- What the label says when the propositions that it numbers have these truth values. -/
def holds (σ : Nat → Bool) : Label → Bool
  | truth b => b
  | prop i => σ i
  | not l => !l.holds σ
  | and l m => l.holds σ && m.holds σ
  | or l m => l.holds σ || m.holds σ

/-- All propositions of the label have numbers below `n`. -/
def Below (n : Nat) : Label → Prop
  | truth _ => True
  | prop i => i < n
  | not l => l.Below n
  | and l m => l.Below n ∧ m.Below n
  | or l m => l.Below n ∧ m.Below n

variable {n : Nat} {s : List Char}

theorem below_of_derives {k : Level} {l : Label} (h : Derives n k s l) : l.Below n := by
  induction h with
  | yes => trivial
  | no => trivial
  | index hne hdigits hlt => exact hlt
  | brackets h ih => exact ih
  | factor h ih => exact ih
  | not h ih => exact ih
  | conjunction h ih => exact ih
  | and hl hm ihl ihm => exact ⟨ihl, ihm⟩
  | disjunction h ih => exact ih
  | or hl hm ihl ihm => exact ⟨ihl, ihm⟩
  | before hb h ih => exact ih
  | behind hb h ih => exact ih

theorem gives_parse (n : Nat) (s : List Char) : Gives (parse n s) fun l => l.Below n :=
  fun _ h => below_of_derives (derives_of_parse h)

theorem holds_congr {σ τ : Nat → Bool} (hστ : ∀ i < n, σ i = τ i) {l : Label} (hl : l.Below n) :
    l.holds σ = l.holds τ := by
  induction l with
  | truth b => rfl
  | prop i => exact hστ i hl
  | not l ih => rw [holds, holds, ih hl]
  | and l m ihl ihm => rw [holds, holds, ihl hl.1, ihm hl.2]
  | or l m ihl ihm => rw [holds, holds, ihl hl.1, ihm hl.2]

/-- The diagram of a label over propositions that have its numbers. -/
theorem returns_toDiagram {s : Diagram.Store} {props : Array Nat} (hprops : ∀ p ∈ props, p ≠ 0)
    {l : Label} (hl : l.Below props.size) (hs : s.Sound) :
    Returns (l.toDiagram props) s fun e t =>
      t.Denotes e fun σ => l.holds fun i => σ (props.getD i 0) := by
  induction l generalizing s with
  | truth b =>
    cases b with
    | true => exact .pure hs.denotes_one
    | false => exact .pure hs.denotes_zero
  | prop i =>
    have hi : props[i]? = some props[i] := Array.getElem?_eq_getElem hl
    have hget : props.getD i 0 = props[i] := by simp [Array.getD_eq_getD_getElem?, hi]
    simp only [toDiagram, hi, holds, hget]
    exact (Diagram.succeeds_makeNode hs (hprops _ (Array.getElem_mem hl)) .zero .one).returns
      (Diagram.yields_makeVariable hs _)
  | not l ih =>
    exact (ih hl hs).bind fun e t hst he => .pure (he.neg (hs.mono hst))
  | and l m ihl ihm =>
    refine (ihl hl.1 hs).bind fun e t hst he => (ihm hl.2 (hs.mono hst)).bind fun f u htu hf => ?_
    have ht := hs.mono hst
    exact Diagram.returns_conj (ht.mono htu) (he.mono ht htu) hf
  | or l m ihl ihm =>
    refine (ihl hl.1 hs).bind fun e t hst he => (ihm hl.2 (hs.mono hst)).bind fun f u htu hf => ?_
    have ht := hs.mono hst
    exact Diagram.returns_disj (ht.mono htu) (he.mono ht htu) hf

/-- An edge that says what the label says is the one that is made for it. -/
theorem returns_toDiagram_eq {s : Diagram.Store} {props : Array Nat} (hprops : ∀ p ∈ props, p ≠ 0)
    {l : Label} (hl : l.Below props.size) (hs : s.Sound) {e : Edge} (he : s.Valid e)
    (hvalue : ∀ σ : Assignment, (l.holds fun i => σ (props.getD i 0)) = s.value e σ) :
    Returns (l.toDiagram props) s fun f _ => f = e := by
  refine (returns_toDiagram hprops hl hs).mono fun f t hst hf => ?_
  refine (hs.mono hst).eq_of_value_eq hf.valid (he.mono hst) fun σ => ?_
  calc
    t.value f σ = l.holds fun i => σ (props.getD i 0) := congrFun hf.value_eq σ
    _ = t.value e σ := by rw [hvalue, hs.value_mono hst he]

end Label

end RegularArithmetic
