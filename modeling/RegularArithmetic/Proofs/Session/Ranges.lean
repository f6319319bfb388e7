import RegularArithmetic.Proofs.Program.Ranges
import RegularArithmetic.Proofs.Session.Witness

/-!
Equations between ranges in plain sessions. Wherever such a session has come to, a question about
ranges is answered as the numbers demand, and the session stays what it is.
-/

set_option autoImplicit false

namespace RegularArithmetic.Session

namespace PlainState

variable {config : Config} {Γ : Relations} {w : Workspace} {r q : String} {s e t f : Expr}

theorem tells (h : PlainState config Γ w) : w.Tells Γ Set.univ :=
  h.idle.atRest.tells (Set.subset_univ _)

/-- A plain session answers questions about ranges, and is at rest after them. -/
theorem rests_truthOf_rangeEq (h : PlainState config Γ w)
    (hplain : plainArgs {none} Set.univ [s, e, t, f]) :
    (∀ t' w', Program.truthOf (Form.rangeEq r s e q t f).plain w = .ok t' w' →
      t'.Says (RangesMatch Γ r s e q t f)) ∧
      (endOf (Program.truthOf (Form.rangeEq r s e q t f).plain) w).AtRest Γ := by
  have hyields := h.tells.yields_truthOf (r := r) (q := q) trivial trivial hplain
  exact ⟨fun t' w' hrun => (hyields.of_ok hrun).2, h.idle.atRest.mono hyields.le_endOf⟩

end PlainState

/-- What a session comes to that defines the even numbers. -/
def evenState : Option Workspace :=
  match start ⟨2, none, true, true⟩ with
  | .error _ => none
  | .ok s =>
    match Program.define (.ofBody "even" ["x"] [] twiceSome) s.workspace with
    | .error _ _ => none
    | .ok _ w => some w

theorem isSome_evenState : evenState.isSome = true := by decide +kernel

abbrev evenRelations : Relations :=
  Relations.define .binary "even" (DefinedBy ["x"] (twiceSome.Satisfied .binary))

theorem exists_of_evenState {w : Workspace} (h : evenState = some w) :
    ∃ s, start ⟨2, none, true, true⟩ = .ok s ∧
      Program.define (.ofBody "even" ["x"] [] twiceSome) s.workspace = .ok () w := by
  unfold evenState at h
  split at h
  · cases h
  · rename_i s hstart
    split at h
    · cases h
    · rename_i w' hdefine
      cases h
      exact ⟨s, hstart, hdefine⟩

theorem isPlain_even : (Request.define "even" ["x"] twiceSome).IsPlain ⟨2, none, true, true⟩ := by
  have hx : IsOwn "x" := by decide
  have hy : IsOwn "y" := by decide
  exact ⟨by decide, by decide, by decide, rfl, hy, rfl, rfl, rfl, ⟨rfl, hx⟩, rfl, ⟨rfl, rfl, hy⟩,
    rfl, rfl, hy⟩

theorem plainState_even {w : Workspace} (h : evenState = some w) :
    PlainState ⟨2, none, true, true⟩ evenRelations w := by
  obtain ⟨s, hstart, hdefine⟩ := exists_of_evenState h
  exact .define (.start hstart) isPlain_even hdefine

/-- The even numbers from 0 up to `x` are compared with those from `y` up to 2. -/
theorem yields_rangeEq_even : ∃ w, evenState = some w ∧ w.Tells evenRelations Set.univ ∧
    plainArgs {none} Set.univ [(Form.num 0).plain, .var "x", .var "y", (Form.num 2).plain] ∧
    (Yields (do
        let x ← Program.infer Program.Engine.standard.truth
          (Form.rangeEq "even" (Form.num 0).plain (.var "x") "even" (.var "y")
            (Form.num 2).plain).plain
        Program.Engine.standard.formula x) w
      fun a w' => ∀ (u : List Letter) τ, w'.Fits (.own Set.univ ∅) τ (Word.ofLetters u) →
        (a.Admits w'.alphabet.diagrams u ↔ RangesMatch evenRelations "even" (Form.num 0).plain
          (.var "x") "even" (.var "y") (Form.num 2).plain τ)) := by
  obtain ⟨w, hw⟩ := Option.isSome_iff_exists.1 isSome_evenState
  have htells := (plainState_even hw).tells
  have hx : IsOwn "x" := by decide
  have hy : IsOwn "y" := by decide
  have hplain : plainArgs {none} Set.univ
      [(Form.num 0).plain, .var "x", .var "y", (Form.num 2).plain] :=
    ⟨⟨rfl, rfl, trivial⟩, ⟨rfl, rfl, hx⟩, ⟨rfl, rfl, hy⟩, ⟨rfl, rfl, trivial⟩, trivial⟩
  exact ⟨w, hw, htells, hplain, (htells.yields_rangeEq trivial trivial hplain).1⟩

end RegularArithmetic.Session
