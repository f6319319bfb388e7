import RegularArithmetic.Proofs.Program.Agreement
import RegularArithmetic.Proofs.Session.Witness

/-!
What the automata of plain sessions are about. That of a predicate reads the propositions of its
arguments, and that of a question those of the free variables of its formula: no proposition of a
temporary variable, of a bound one or of another scope is left. Constants are those that would be
made if none were remembered.
-/

set_option autoImplicit false

namespace RegularArithmetic

open Program (Engine)

namespace Workspace

variable {I : Interpretation} {Γ : Relations} {K : Limits} {N V : Set String} {w w₀ w₁ : Workspace}
  {fs : List Frame} {x y : Expr} {a : Automaton} {name : String} {q : Predicate}

namespace AtRest

theorem reads_memo (h : w.AtRest Γ) (hq : w.program.predicates[name]? = some q) :
    ∃ r, q.memo = some r ∧ r.args.Nodup ∧
      r.automaton.Reads w.alphabet.diagrams {p | p ∈ r.args} := by
  obtain ⟨r, hr⟩ := Option.ne_none_iff_exists'.1 (h.evaluated name q hq)
  have hself := Program.resolveAlias_self (Program.contains_of_getElem?_eq_some hq)
  have hmeans := h.right.relations name trivial name q r hself hq hr
  exact ⟨r, hr, hmeans.nodup, hmeans.recognizes.reads⟩

theorem reads_formula (h : w.AtRest Γ) (hx : x.IsPlain {none} N)
    (hinfer : Program.infer Engine.standard.truth x
      (w.framing (Engine.queryFrame :: w.program.frames)) = .ok y w₀)
    (hformula : Engine.standard.formula y w₀ = .ok a w₁) :
    a.Reads w₁.alphabet.diagrams
      {p | ∃ v ∈ x.freeVars, Program.findVar v w₁.program.frames = .bound p} := by
  obtain ⟨z, hz, hxz⟩ := Program.infer_eq_ok Engine.standard.truth hx
    (w := w.framing (Engine.queryFrame :: w.program.frames)) h.free
  rw [hz] at hinfer
  cases hinfer
  have hwithin : y.Within (.own Set.univ ∅) :=
    hxz.plain.within (fun _ hv => hv) (fun _ hv => hv) (Set.subset_univ N)
  have hfree : y.Within { Limits.own Set.univ ∅ with vars := {v | v ∈ x.freeVars ∧ IsOwn v} } :=
    hwithin.withVars fun v hv hown => ⟨hxz.freeVars_eq ▸ hv, hown⟩
  have hready := (h.ready (h.framed.framing .free "query")).withVars
    (V := {v | v ∈ x.freeVars ∧ IsOwn v}) h.free fun v hv => hv.2
  obtain ⟨-, L, hL, -⟩ := (Program.sound_standard.formula hready hfree).of_ok hformula
  exact hL.reads.mono fun p ⟨v, hv, hp⟩ => ⟨v, hv.1, hp⟩

end AtRest

end Workspace

namespace Session

variable {config : Config} {Γ : Relations} {w : Workspace} {fs : List Frame}

/-- What the automata of a session are about: those of its predicates read the propositions of their
arguments, and those of questions the propositions of the free variables of the formulas. -/
structure ReadsOwn (w : Workspace) : Prop where
  predicates : ∀ (name : String) (q : Predicate), w.program.predicates[name]? = some q →
    ∃ r, q.memo = some r ∧ r.args.Nodup ∧ r.automaton.Reads w.alphabet.diagrams {p | p ∈ r.args}
  questions : ∀ x : Expr, x.IsPlain {none} Set.univ → ∀ y w₀ a w₁,
    Program.infer Engine.standard.truth x
      (w.framing (Engine.queryFrame :: w.program.frames)) = .ok y w₀ →
    Engine.standard.formula y w₀ = .ok a w₁ → a.Reads w₁.alphabet.diagrams
      {p | ∃ v ∈ x.freeVars, Program.findVar v w₁.program.frames = .bound p}

/-- Plain sessions read nothing else. -/
theorem PlainState.readsOwn (h : PlainState config Γ w) : ReadsOwn w where
  predicates _ _ hq := h.idle.atRest.reads_memo hq
  questions _ hx _ _ _ _ hinfer hformula := h.idle.atRest.reads_formula hx hinfer hformula

theorem readsOwn_plainState : ∃ w, PlainState ⟨6, none, true, true⟩ .binary w ∧ ReadsOwn w := by
  obtain ⟨w, h⟩ := exists_plainState
  exact ⟨w, h, h.readsOwn⟩

/-- Whatever was defined, redefined or asked in a plain session: in every scope its constants are
those that would be made if none were remembered. -/
theorem PlainState.recalls_any (h : PlainState config Γ w) (hfs : (w.framing fs).Framed) (n : Nat) :
    Workspace.Recalls Engine.standard .any n (w.framing fs) :=
  have hready := h.idle.atRest.ready hfs
  hready.recalls Program.sound_standard (fun _ _ => rfl) (d := .any) trivial n

/-- The number 3, after a question about 1. -/
theorem recalls_any_three : ∃ w, PlainState ⟨6, none, true, true⟩ .binary w ∧
    let w' := endOf (Program.truthOf isOne) w
    Workspace.Recalls Engine.standard .any 3 (w'.framing w'.program.frames) := by
  obtain ⟨w, h⟩ := exists_plainState
  have hasked := h.ask isPlain_isOne
  exact ⟨w, h, hasked.recalls_any hasked.idle.atRest.framed 3⟩

end Session

end RegularArithmetic
